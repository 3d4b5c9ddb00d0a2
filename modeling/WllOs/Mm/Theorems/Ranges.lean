import WllOs.Mm.World
import WllOs.Mm.Theorems.HandlePageFault

namespace WllOs

variable {areas : List MapArea} {area : MapArea} {pageTable : PageTable} {refCount : Ppn → Nat}
variable {start stop startVa endVa addr i : Nat} {flags permission : PTEFlags} {backing : MapAreaBacking}
variable {ms ms' : MemorySet} {frames frames' : Frames}
variable {cached : Ppn → Prop} {grant : Bool → Ppn → Prop}

-- An area that overlaps none of the others can be added to them.
theorem Sorted.apart_append (h : Sorted areas)
    (hf : ∀ a ∈ areas, ¬a.overlaps area.startVa area.endVa) : (areas ++ [area]).Pairwise Apart := by
  refine List.pairwise_append.mpr ⟨h.apart, List.pairwise_singleton .., fun a ha b hb => ?_⟩
  rw [List.mem_singleton.mp hb]
  have := hf a ha
  simp only [MapArea.overlaps, Bool.and_eq_true, decide_eq_true_eq, not_and, Nat.not_lt] at this
  simp only [Apart]
  omega

namespace MemorySet

theorem rangeOverlaps_eq_false (hw : ms.WF) (hr : start < stop) :
    ms.rangeOverlaps start stop = false ↔ ∀ a ∈ ms.areas, ¬a.overlaps start stop := by
  simp only [rangeOverlaps, Nat.not_le_of_lt hr, if_false]
  constructor
  case mp =>
    intro h a ha
    obtain ⟨i, hi⟩ := List.mem_iff_getElem?.mp ha
    have hspec := firstAreaEndingAfter_spec start hw hi
    simp only [MapArea.overlaps, Bool.and_eq_true, decide_eq_true_eq, not_and, Nat.not_lt]
    intro hlt
    by_contra hend
    have hle : ms.firstAreaEndingAfter start ≤ i := by omega
    obtain ⟨hlt', hget⟩ := List.getElem?_eq_some_iff.mp hi
    have hfirst := List.getElem?_eq_getElem (Nat.lt_of_le_of_lt hle hlt')
    rw [hfirst, Option.any_some, decide_eq_false_iff_not] at h
    rcases Nat.lt_or_eq_of_le hle with hj | hj
    case inl =>
      have hbefore := List.pairwise_iff_getElem.mp hw.sorted _ i (Nat.lt_of_le_of_lt hle hlt') hlt' hj
      have := (hw.areas _ (List.getElem_mem (Nat.lt_of_le_of_lt hle hlt'))).start_lt_end
      rw [hget] at hbefore
      omega
    case inr =>
      rw [← hj, hfirst, Option.some.injEq] at hi
      rw [hi] at h
      omega
  case mpr =>
    intro h
    cases hf : ms.areas[ms.firstAreaEndingAfter start]?
    case none => rfl
    case some a =>
      have hspec := firstAreaEndingAfter_spec start hw hf
      have := h a (List.mem_of_getElem? hf)
      simp only [MapArea.overlaps, Bool.and_eq_true, decide_eq_true_eq, not_and, Nat.not_lt] at this
      rw [Option.any_some, decide_eq_false_iff_not]
      omega

theorem coalesceAppend_sorted (hw : ms.WF) (ha : area.WF)
    (hf : ∀ a ∈ ms.areas, ¬a.overlaps area.startVa area.endVa) :
    Sorted (coalesceAreas ⟨pageTable, ms.areas ++ [area]⟩).areas := by
  refine coalesceAreas_sorted (fun a hm => ?_) (hw.sorted.apart_append hf)
  rcases List.mem_append.mp hm with hm | hm
  · exact hw.areas a hm
  · exact List.mem_singleton.mp hm ▸ ha

theorem insertLazyAreaWithBacking_sorted (hw : ms.WF) (hf : ms.RangeFree startVa endVa)
    (h : ms.insertLazyAreaWithBacking startVa endVa permission backing = .ok ms') :
    Sorted ms'.areas := by
  simp only [insertLazyAreaWithBacking] at h
  split at h
  case h_1 => cases h
  case h_2 start stop hr =>
    cases h
    exact coalesceAppend_sorted hw (withBacking_wf hr ..) (hf start stop hr)

theorem insertFramedAreaWithBacking_sorted (hw : ms.WF) (hf : ms.RangeFree startVa endVa)
    (hc : ¬permission.cow) :
    Sorted (ms.insertFramedAreaWithBacking frames startVa endVa permission backing).1.areas := by
  simp only [insertFramedAreaWithBacking]
  split
  case h_1 => exact hw.sorted
  case h_2 start stop hr =>
    have hwa := withBacking_wf hr permission backing
    split
    case isTrue => exact coalesceAppend_sorted hw hwa (hf start stop hr)
    case isFalse hl =>
      have hl : permission.hasLeafPermission := by simpa using hl
      rcases insertArea_spec frames ms.pageTable backing hr hl hc with
        ⟨pt, fr, error, heq, _⟩ | ⟨pt, fr, area, heq, hfill⟩
      case inl => simpa only [heq] using hw.sorted
      case inr =>
        simp only [heq]
        refine coalesceAppend_sorted hw (markShared_wf hfill.wf) ?_
        simpa [hfill.startVa, hfill.endVa, MapArea.withBacking] using hf start stop hr

theorem insertSharedFramedArea_sorted {shared : List Ppn} (hw : ms.WF)
    (h : ms.insertSharedFramedArea startVa endVa permission backing shared = .ok ms') :
    Sorted ms'.areas := by
  simp only [insertSharedFramedArea] at h
  split at h
  case h_1 => cases h
  case h_2 start stop hr =>
    split at h
    case isTrue => cases h
    case isFalse hlen =>
      split at h
      case isTrue => cases h
      case isFalse hoverlaps =>
        have hwa := withBacking_wf hr permission backing
        obtain ⟨resident, he, hw', _⟩ := MapArea.replaceResident_ok hwa (not_not.mp hlen)
        rw [he] at h
        cases h
        have hlt := (pageRange_eq_some hr).2.2
        exact coalesceAppend_sorted hw hw'
          ((rangeOverlaps_eq_false hw hlt).mp (by simpa using hoverlaps))

theorem unmapAreas_areas : (unmapAreas start stop areas pageTable).1 =
    areas.filter fun a => !a.overlaps start stop := by
  induction areas generalizing pageTable
  case nil => rfl
  case cons area rest hi =>
    by_cases ho : area.overlaps start stop <;> simp [unmapAreas, ho, hi]

theorem splitAreaAt_wf (hw : ms.WF) (addr : Nat) : (ms.splitAreaAt addr).WF :=
  ⟨splitAreaAt_rearranged.wf hw.areas, splitAreaAt_sorted hw.areas hw.sorted⟩

theorem unmapRange_sorted (hw : ms.WF) (h : ms.unmapRange start stop = .ok ms') :
    Sorted ms'.areas := by
  simp only [unmapRange] at h
  split at h
  case isTrue => cases h
  case isFalse =>
    cases h
    have hw' := splitAreaAt_wf (splitAreaAt_wf hw start) stop
    refine coalesceAreas_sorted (fun a ha => ?_) ?_
    case refine_1 =>
      simp only [unmapAreas_areas] at ha
      exact hw'.areas a (List.mem_of_mem_filter ha)
    case refine_2 =>
      simp only [unmapAreas_areas]
      exact hw'.sorted.apart.filter _

-- An area gets new flags if it overlaps the range.
def Reflagged (flags : PTEFlags) (start stop : Nat) (area area' : MapArea) : Prop :=
  ∃ flags', area' = { area with flags := flags' } ∧
    (area.overlaps start stop → flags'.withoutCow = flags.withoutCow) ∧
    (¬area.overlaps start stop → flags' = area.flags)

theorem Reflagged.refl (h : ¬area.overlaps start stop) : Reflagged flags start stop area area :=
  ⟨area.flags, rfl, fun ho => absurd ho h, fun _ => rfl⟩

theorem Reflagged.wf {area' : MapArea} (h : Reflagged flags start stop area area') (hw : area.WF) :
    area'.WF := by
  have ⟨flags', he, _⟩ := h
  exact he ▸ hw.setFlags flags'

theorem Reflagged.range {area' : MapArea} (h : Reflagged flags start stop area area') :
    area'.range = area.range := by
  have ⟨flags', he, _⟩ := h
  rw [he]
  rfl

theorem overlaps_iff : area.overlaps start stop ↔ area.startVa < stop ∧ start < area.endVa := by
  simp [MapArea.overlaps]

theorem protectArea_reflagged (refCount : Ppn → Nat) (flags : PTEFlags) (pageTable : PageTable)
    (h : area.overlaps start stop) :
    Reflagged flags start stop area (protectArea refCount flags area pageTable).1 := by
  by_cases hc : area.flags.withoutCow = flags
  case pos =>
    refine ⟨area.flags, by simp [protectArea, hc], fun _ => ?_, fun _ => rfl⟩
    rw [← hc]
    rfl
  case neg => exact ⟨_, protectArea_area hc, fun _ => protectedFlags_withoutCow, fun hn => absurd h hn⟩

-- The loop ends with the first area that starts at or after the end of the range.
theorem protectAreas_reflagged (refCount : Ppn → Nat) (flags : PTEFlags) (stop : Nat) (pageTable : PageTable)
    (hw : ∀ a ∈ areas, a.WF) (hs : Sorted areas) (he : ∀ a ∈ areas, start < a.endVa) :
    List.Forall₂ (Reflagged flags start stop) areas
      (protectAreas refCount flags stop areas pageTable).1 := by
  induction areas generalizing pageTable
  case nil => exact .nil
  case cons area rest hi =>
    have ⟨hwa, hwr⟩ := List.forall_mem_cons.mp hw
    have ⟨hea, her⟩ := List.forall_mem_cons.mp he
    have ⟨hlt, hsr⟩ := Sorted.cons.mp hs
    simp only [protectAreas]
    split
    case isTrue hstart =>
      exact .cons (protectArea_reflagged refCount flags pageTable (overlaps_iff.mpr ⟨hstart, hea⟩))
        (hi _ hwr hsr her)
    case isFalse hstart =>
      refine List.forall₂_same.mpr fun a ha => .refl fun ho => ?_
      have := (overlaps_iff.mp ho).1
      rcases List.mem_cons.mp ha with rfl | ha
      · omega
      · have := hlt a ha
        have := hwa.start_lt_end
        omega

-- It starts with the first area that ends after the start of the range.
theorem protectFrom_reflagged (refCount : Ppn → Nat) (flags : PTEFlags) (start stop : Nat) (hw : ms.WF) :
    List.Forall₂ (Reflagged flags start stop) ms.areas
      (ms.areas.take (ms.firstAreaEndingAfter start) ++ (protectAreas refCount flags stop
        (ms.areas.drop (ms.firstAreaEndingAfter start)) ms.pageTable).1) := by
  have hsplit := List.take_append_drop (ms.firstAreaEndingAfter start) ms.areas
  have hpre : ∀ a ∈ ms.areas.take (ms.firstAreaEndingAfter start), a.endVa ≤ start := fun a ha => by
    have ⟨i, hi, hget⟩ := List.getElem_of_mem ha
    rw [List.length_take] at hi
    have hget : ms.areas[i]? = some a := by
      rw [← hget, List.getElem_take, List.getElem?_eq_getElem]
    exact (firstAreaEndingAfter_spec start hw hget).mpr (by omega)
  have hpost : ∀ a ∈ ms.areas.drop (ms.firstAreaEndingAfter start), start < a.endVa := fun a ha => by
    have ⟨i, hi, hget⟩ := List.getElem_of_mem ha
    have hget : ms.areas[ms.firstAreaEndingAfter start + i]? = some a := by
      rw [← hget, List.getElem_drop, List.getElem?_eq_getElem]
    have := firstAreaEndingAfter_spec start hw hget
    omega
  have ⟨_, hs, _⟩ := Sorted.append.mp (hsplit ▸ hw.sorted)
  have h₁ : List.Forall₂ (Reflagged flags start stop) (ms.areas.take (ms.firstAreaEndingAfter start))
      (ms.areas.take (ms.firstAreaEndingAfter start)) :=
    List.forall₂_same.mpr fun a ha => .refl fun ho => by
      have := hpre a ha
      have := (overlaps_iff.mp ho).2
      omega
  have h₂ := protectAreas_reflagged refCount flags stop ms.pageTable
    (fun a ha => hw.areas a (List.mem_of_mem_drop ha)) hs hpost
  have happend := List.rel_append h₁ h₂
  simp only [hsplit] at happend
  exact happend

theorem protectRange_sorted (hw : ms.WF) (h : protectRange refCount ms start stop flags = .ok ms') :
    Sorted ms'.areas := by
  simp only [protectRange] at h
  split at h
  case isTrue => cases h
  case isFalse =>
    split at h
    case isTrue => cases h
    case isFalse hc =>
      split at h
      case isTrue => cases h; exact hw.sorted
      case isFalse =>
        cases h
        have hw' := splitAreaAt_wf (splitAreaAt_wf hw start) stop
        have hr := protectFrom_reflagged refCount flags start stop hw'
        refine coalesceChangedRange_sorted (fun a ha => ?_)
          (hw'.sorted.of_range (Lists.forall₂_map_eq hr fun _ _ h => h.range))
        obtain ⟨b, hb, h⟩ := Lists.exists_of_mem_right hr ha
        exact h.wf (hw'.areas b hb)

@[simp]
theorem discardArea_range : (discardArea start stop area pageTable).1.range = area.range := by
  simp only [discardArea]
  split
  case isTrue => rfl
  case isFalse =>
    split
    case h_1 area' owner he =>
      simp only [MapArea.extractResidentRange] at he
      cases hx : area.resident.extractRange ((max start area.startVa - area.startVa) / pageSize)
        ((min stop area.endVa - area.startVa) / pageSize)
      case error => rw [hx] at he; cases he
      case ok r => rw [hx] at he; cases r <;> (cases he; rfl)
    case h_2 => rfl

theorem discardAreas_range : (discardAreas start stop areas pageTable).1.map MapArea.range =
    areas.map MapArea.range := by
  induction areas generalizing pageTable
  case nil => rfl
  case cons area rest hi => simp [discardAreas, hi]

theorem discardAnonymousRange_sorted {discarded : Nat} (hw : ms.WF)
    (h : ms.discardAnonymousRange start stop = .ok (ms', discarded)) : Sorted ms'.areas := by
  simp only [discardAnonymousRange] at h
  split at h
  case isTrue => cases h
  case isFalse =>
    split at h
    case isTrue => cases h
    case isFalse =>
      cases h
      exact hw.sorted.of_range discardAreas_range

theorem Resolution.wf (hw : ms.WF) (h : Resolution cached grant ms frames ms' frames') : ms'.WF := by
  have ⟨kind, hstep⟩ := h.step
  exact ⟨hstep.wf hw.areas, hw.sorted.of_range h.range⟩

end MemorySet

end WllOs
