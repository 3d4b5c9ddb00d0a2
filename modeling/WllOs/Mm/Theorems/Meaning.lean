import WllOs.Mm.Theorems.Ranges

namespace WllOs

variable {areas : List MapArea} {area : MapArea} {refCount : Ppn → Nat} {start stop addr vpn : Nat} {flags : PTEFlags}
variable {ms ms' : MemorySet} {view : PageView}

-- A rearrangement of areas that are in order does not change the meaning of any page.
theorem Rearranged.meaning_eq (h : Rearranged ms.areas ms'.areas) (hw : ms.WF)
    (hs : Sorted ms'.areas) : ms'.meaning = ms.meaning := by
  funext vpn
  refine Option.ext fun view => ?_
  rw [hs.meaning_eq_some, hw.sorted.meaning_eq_some, h.views hw.areas]

namespace MapArea

theorem WF.contains_iff (h : area.WF) : (area.startVa ≤ addr ∧ addr < area.endVa) ↔
    (area.startVa ≤ addr / pageSize * pageSize ∧ addr / pageSize * pageSize < area.endVa) :=
  h.alignDown_iff.symm

theorem WF.view_of_contains (h : area.WF) (ha : area.startVa ≤ addr ∧ addr < area.endVa) :
    ∃ view, area.view (addr / pageSize) = some view := by
  have ⟨h₁, h₂⟩ := h.contains_iff.mp ha
  exact ⟨_, view_eq_some.mpr ⟨h₁, h₂, rfl⟩⟩

theorem WF.contains_of_view (h : area.WF) {view : PageView}
    (hv : area.view (addr / pageSize) = some view) : area.startVa ≤ addr ∧ addr < area.endVa :=
  h.contains_iff.mpr (MapArea.contains_of_view hv)

end MapArea

namespace MemorySet

theorem meaning_eq_none (hw : ms.WF) : ms.meaning (addr / pageSize) = none ↔
    ∀ a ∈ ms.areas, ¬(a.startVa ≤ addr ∧ addr < a.endVa) := by
  simp only [meaning, List.findSome?_eq_none_iff]
  refine forall₂_congr fun a ha => ?_
  constructor
  case mp =>
    intro hn hc
    have ⟨view, hv⟩ := (hw.areas a ha).view_of_contains hc
    rw [hn] at hv
    cases hv
  case mpr =>
    intro hn
    cases hv : a.view (addr / pageSize)
    case none => rfl
    case some view => exact absurd ((hw.areas a ha).contains_of_view hv) hn

-- Splitting and merging.

theorem splitAreaAt_meaning (hw : ms.WF) (addr : Nat) : (ms.splitAreaAt addr).meaning = ms.meaning :=
  splitAreaAt_rearranged.meaning_eq hw (splitAreaAt_wf hw addr).sorted

theorem coalesceAreas_meaning (hw : ms.WF) : ms.coalesceAreas.meaning = ms.meaning :=
  coalesceAreas_rearranged.meaning_eq hw (coalesceAreas_sorted hw.areas hw.sorted.apart)

theorem coalesceChangedRange_meaning (hw : ms.WF) (start stop : Nat) :
    (ms.coalesceChangedRange start stop).meaning = ms.meaning :=
  coalesceChangedRange_rearranged.meaning_eq hw (coalesceChangedRange_sorted hw.areas hw.sorted)

-- Splitting at both ends of a range cuts out the areas that overlap it.
theorem split_inside (hw : ms.WF) (hs : start % pageSize = 0) (he : stop % pageSize = 0)
    (ha : area ∈ ((ms.splitAreaAt start).splitAreaAt stop).areas) (ho : area.overlaps start stop) :
    start ≤ area.startVa ∧ area.endVa ≤ stop := by
  have hw₁ := splitAreaAt_wf hw start
  have h₁ := splitAreaAt_keeps_boundary hw₁.areas (splitAreaAt_boundary hw hs) area ha
  have h₂ := splitAreaAt_boundary hw₁ he area ha
  have := overlaps_iff.mp ho
  omega

theorem split_view (hw : ms.WF) (hs : start % pageSize = 0) (he : stop % pageSize = 0)
    (ha : area ∈ ((ms.splitAreaAt start).splitAreaAt stop).areas) (hv : area.view vpn = some view) :
    area.overlaps start stop ↔ start ≤ vpn * pageSize ∧ vpn * pageSize < stop := by
  have ⟨h₁, h₂⟩ := MapArea.contains_of_view hv
  constructor
  case mp =>
    intro ho
    have := split_inside hw hs he ha ho
    omega
  case mpr =>
    intro hr
    exact overlaps_iff.mpr (by omega)

-- The pages of the range lose their meaning, and all others keep theirs.
theorem unmapRange_meaning (hw : ms.WF) (hs : start % pageSize = 0) (he : stop % pageSize = 0)
    (h : ms.unmapRange start stop = .ok ms') (vpn : Nat) :
    ms'.meaning vpn =
    if start ≤ vpn * pageSize ∧ vpn * pageSize < stop then none else ms.meaning vpn := by
  simp only [unmapRange] at h
  split at h
  case isTrue => cases h
  case isFalse =>
    cases h
    have hw' := splitAreaAt_wf (splitAreaAt_wf hw start) stop
    have hview : ∀ a ∈ ((ms.splitAreaAt start).splitAreaAt stop).areas, ∀ view, a.view vpn = some view →
        (a.overlaps start stop ↔ start ≤ vpn * pageSize ∧ vpn * pageSize < stop) :=
      fun a ha view => split_view hw hs he ha
    rw [← splitAreaAt_meaning hw start, ← splitAreaAt_meaning (splitAreaAt_wf hw start) stop]
    generalize (ms.splitAreaAt start).splitAreaAt stop = ms₁ at hw' hview
    have hwu : WF ⟨(unmapAreas start stop ms₁.areas ms₁.pageTable).2,
        (unmapAreas start stop ms₁.areas ms₁.pageTable).1⟩ := by
      rw [unmapAreas_areas]
      exact ⟨fun a ha => hw'.areas a (List.mem_of_mem_filter ha), hw'.sorted.filter _⟩
    rw [coalesceAreas_meaning hwu]
    simp only [meaning, unmapAreas_areas]
    generalize ms₁.areas = areas at hview
    induction areas
    case nil => simp
    case cons area rest hi =>
      obtain ⟨hva, hvr⟩ := List.forall_mem_cons.mp hview
      have hi := hi hvr
      cases hv : area.view vpn
      case none =>
        by_cases ho : area.overlaps start stop <;> simp [ho, hv, hi]
      case some view =>
        have := hva view hv
        by_cases ho : area.overlaps start stop <;> simp_all

-- Coverage of a range.

theorem rangeCoveredFrom_iff (hw : ms.WF) (stop fuel cursor : Nat)
    (hf : (ms.areas.filter (cursor < ·.endVa)).length ≤ fuel) :
    ms.rangeCoveredFrom stop fuel cursor ↔
    ∀ addr, cursor ≤ addr → addr < stop → ∃ a ∈ ms.areas, a.startVa ≤ addr ∧ addr < a.endVa := by
  induction fuel generalizing cursor
  case zero =>
    simp only [rangeCoveredFrom, decide_eq_true_eq]
    constructor
    case mp => intro h addr h₁ h₂; omega
    case mpr =>
      intro h
      by_contra hlt
      have ⟨a, ha, hc⟩ := h cursor (le_refl _) (by omega)
      have hmem : a ∈ ms.areas.filter (cursor < ·.endVa) := by simp [ha, hc.2]
      have := List.length_pos_of_mem hmem
      omega
  case succ fuel hi =>
    simp only [rangeCoveredFrom]
    split
    case isFalse hge => simp only [true_iff]; intro addr h₁ h₂; omega
    case isTrue hlt =>
      cases hc : ms.areaContaining cursor
      case none =>
        simp only [Bool.false_eq_true, false_iff, not_forall]
        refine ⟨cursor, le_refl _, hlt, ?_⟩
        rintro ⟨a, ha, hc'⟩
        exact (areaContaining_eq_none hw).mp hc a ha hc'
      case some r =>
        obtain ⟨i, area⟩ := r
        have hm := areaContaining_mem hc
        have ⟨_, hs, he⟩ := areaContaining_sound hc
        -- The area does not end after itself, so fewer areas are left.
        have hfewer : (ms.areas.filter (area.endVa < ·.endVa)).length <
            (ms.areas.filter (cursor < ·.endVa)).length := by
          refine Lists.length_filter_lt (fun a _ h => ?_) hm (by simpa using he) (by simp)
          simp only [decide_eq_true_eq] at h ⊢
          omega
        rw [hi area.endVa (by omega)]
        constructor
        case mp =>
          intro h addr h₁ h₂
          by_cases ha : addr < area.endVa
          case pos => exact ⟨area, hm, by omega⟩
          case neg => exact h addr (by omega) h₂
        case mpr => exact fun h addr h₁ => h addr (by omega)

theorem rangeCovered_iff (hw : ms.WF) : ms.rangeCovered start stop ↔
    ∀ addr, start ≤ addr → addr < stop → ∃ a ∈ ms.areas, a.startVa ≤ addr ∧ addr < a.endVa :=
  rangeCoveredFrom_iff hw stop _ start (List.length_filter_le ..)

theorem rangeCovered_pages (hw : ms.WF) (hs : start % pageSize = 0) (he : stop % pageSize = 0) :
    ms.rangeCovered start stop ↔
    ∀ vpn, start ≤ vpn * pageSize → vpn * pageSize < stop → ms.meaning vpn ≠ none := by
  have hvpn : ∀ vpn, vpn * pageSize / pageSize = vpn := fun vpn => Nat.mul_div_cancel _ pageSize_pos
  rw [rangeCovered_iff hw]
  constructor
  case mp =>
    intro h vpn h₁ h₂ hn
    rw [← hvpn vpn, meaning_eq_none hw] at hn
    have ⟨a, ha, hc⟩ := h _ h₁ h₂
    exact hn a ha hc
  case mpr =>
    intro h addr h₁ h₂
    have hn := h (addr / pageSize) (by simp only [pageSize] at *; omega)
      (by simp only [pageSize] at *; omega)
    rw [ne_eq, meaning_eq_none hw] at hn
    simpa using hn

-- New flags for the areas that overlap a range, none of which has a part outside of it.

theorem view_setFlags (area : MapArea) (flags : PTEFlags) (vpn : Nat) :
    MapArea.view { area with flags } vpn = (area.view vpn).map fun view => { view with flags } := by
  simp only [MapArea.view]
  split <;> rfl

theorem Reflagged.view_inside {area' : MapArea} (h : Reflagged flags start stop area area')
    (ho : ∀ view, area.view vpn = some view → area.overlaps start stop) :
    ((area'.view vpn).map fun view => (view.flags.withoutCow, view.backing, view.page)) =
    (area.view vpn).map fun view => (flags.withoutCow, view.backing, view.page) := by
  have ⟨flags', he, hin, _⟩ := h
  rw [he, view_setFlags, Option.map_map]
  cases hv : area.view vpn
  case none => rfl
  case some view => simp [hin (ho view hv)]

theorem Reflagged.view_outside {area' : MapArea} (h : Reflagged flags start stop area area')
    (ho : ∀ view, area.view vpn = some view → ¬area.overlaps start stop) :
    (area'.view vpn).map id = (area.view vpn).map id := by
  have ⟨flags', he, _, hout⟩ := h
  cases hv : area.view vpn
  case none => rw [he, view_setFlags, hv]; rfl
  case some view => rw [he, hout (ho view hv), ← hv]

-- The areas that `protect_range` compares with the new flags are the ones that overlap the range.
theorem mem_affected (hw : ms.WF) (ha : area ∈ ms.areas) (ho : area.overlaps start stop) :
    area ∈ (ms.areas.drop (ms.firstAreaEndingAfter start)).takeWhile (·.startVa < stop) := by
  have ⟨h₁, h₂⟩ := overlaps_iff.mp ho
  have ⟨i, hi⟩ := List.mem_iff_getElem?.mp ha
  have hspec := firstAreaEndingAfter_spec start hw hi
  have hmem : area ∈ ms.areas.drop (ms.firstAreaEndingAfter start) := by
    refine List.mem_of_getElem? (i := i - ms.firstAreaEndingAfter start) ?_
    rw [List.getElem?_drop, show ms.firstAreaEndingAfter start + (i - ms.firstAreaEndingAfter start) = i
      by omega, hi]
  have hs : Sorted (ms.areas.drop (ms.firstAreaEndingAfter start)) :=
    List.Pairwise.sublist (List.drop_sublist ..) hw.sorted
  have hws : ∀ a ∈ ms.areas.drop (ms.firstAreaEndingAfter start), a.WF :=
    fun a ha => hw.areas a (List.mem_of_mem_drop ha)
  generalize ms.areas.drop (ms.firstAreaEndingAfter start) = areas at hmem hs hws
  induction areas
  case nil => cases hmem
  case cons a rest hi =>
    have ⟨hlt, hs⟩ := Sorted.cons.mp hs
    have ⟨hwa, hws⟩ := List.forall_mem_cons.mp hws
    rcases List.mem_cons.mp hmem with rfl | hmem
    case inl => simp [h₁]
    case inr =>
      have := hlt area hmem
      have := hwa.start_lt_end
      rw [List.takeWhile_cons_of_pos (by simp; omega)]
      exact List.mem_cons_of_mem _ (hi hmem hs hws)

theorem protectRange_covered (h : protectRange refCount ms start stop flags = .ok ms') :
    ms.rangeCovered start stop := by
  simp only [protectRange] at h
  split at h
  case isTrue => cases h
  case isFalse =>
    split at h
    case isTrue => cases h
    case isFalse hc => simpa using hc

theorem protectRange_meaning (hw : ms.WF) (hs : start % pageSize = 0) (he : stop % pageSize = 0)
    (h : protectRange refCount ms start stop flags = .ok ms') (vpn : Nat) :
    (start ≤ vpn * pageSize ∧ vpn * pageSize < stop →
      ((ms'.meaning vpn).map fun view => (view.flags.withoutCow, view.backing, view.page)) =
      (ms.meaning vpn).map fun view => (flags.withoutCow, view.backing, view.page)) ∧
    (¬(start ≤ vpn * pageSize ∧ vpn * pageSize < stop) → ms'.meaning vpn = ms.meaning vpn) := by
  simp only [protectRange] at h
  split at h
  case isTrue => cases h
  case isFalse =>
    split at h
    case isTrue => cases h
    case isFalse =>
      split at h
      case isTrue hall =>
        cases h
        refine ⟨fun hr => ?_, fun _ => rfl⟩
        cases hm : ms.meaning vpn
        case none => rfl
        case some view =>
          obtain ⟨area, ha, hv⟩ := hw.sorted.meaning_eq_some.mp hm
          obtain ⟨h₁, h₂⟩ := MapArea.contains_of_view hv
          have hmem := mem_affected hw ha (overlaps_iff.mpr (by omega) : area.overlaps start stop)
          have hf := List.all_eq_true.mp hall area hmem
          obtain ⟨_, _, hview⟩ := MapArea.view_eq_some.mp hv
          simp only [decide_eq_true_eq] at hf
          simp [hview, ← hf, PTEFlags.withoutCow]
      case isFalse =>
        cases h
        have hw₁ := splitAreaAt_wf hw start
        have hw' := splitAreaAt_wf hw₁ stop
        have hview : ∀ a ∈ ((ms.splitAreaAt start).splitAreaAt stop).areas, ∀ view,
            a.view vpn = some view →
            (a.overlaps start stop ↔ start ≤ vpn * pageSize ∧ vpn * pageSize < stop) :=
          fun a ha view => split_view hw hs he ha
        rw [← splitAreaAt_meaning hw start, ← splitAreaAt_meaning hw₁ stop]
        generalize (ms.splitAreaAt start).splitAreaAt stop = ms₁ at hw' hview
        have hr := protectFrom_reflagged refCount flags start stop hw'
        generalize hp : protectAreas refCount flags stop (ms₁.areas.drop (ms₁.firstAreaEndingAfter start))
          ms₁.pageTable = result at hr
        have hwp : WF ⟨result.2, ms₁.areas.take (ms₁.firstAreaEndingAfter start) ++ result.1⟩ :=
          ⟨fun a ha => by
            obtain ⟨b, hb, h⟩ := Lists.exists_of_mem_right hr ha
            exact h.wf (hw'.areas b hb), hw'.sorted.of_range (Lists.forall₂_map_eq hr fun _ _ h => h.range)⟩
        rw [coalesceChangedRange_meaning hwp]
        refine ⟨fun hin => ?_, fun hout => ?_⟩
        case refine_1 =>
          exact Lists.forall₂_findSome? hr fun a ha a' h =>
            h.view_inside fun view hv => (hview a ha view hv).mpr hin
        case refine_2 =>
          have hid : ∀ a ∈ ms₁.areas, ∀ a', Reflagged flags start stop a a' →
              (a'.view vpn).map id = (a.view vpn).map id := fun a ha a' h =>
            h.view_outside fun view hv ho => hout ((hview a ha view hv).mp ho)
          have := Lists.forall₂_findSome? hr hid
          simpa only [Option.map_id, id, meaning] using this

-- Unmapping takes away the meaning of the pages of a range, protecting them changes their policy, and
-- the operations on areas underneath change nothing.
theorem range_operations_pointwise (ms : MemorySet) (hw : ms.WF) (start stop : Nat)
    (hs : start % pageSize = 0) (he : stop % pageSize = 0) :
    (stop ≤ start → ms.unmapRange start stop = .error .EINVAL) ∧
    (start < stop → ∃ ms', ms.unmapRange start stop = .ok ms' ∧ ∀ vpn, ms'.meaning vpn =
      if start ≤ vpn * pageSize ∧ vpn * pageSize < stop then none else ms.meaning vpn) ∧
    (∀ refCount flags ms', protectRange refCount ms start stop flags = .ok ms' → ∀ vpn,
      if start ≤ vpn * pageSize ∧ vpn * pageSize < stop then
        ∃ view flags', ms.meaning vpn = some view ∧ ms'.meaning vpn = some { view with flags := flags' } ∧
          flags'.withoutCow = flags.withoutCow
      else
        ms'.meaning vpn = ms.meaning vpn) ∧
    (∀ refCount flags, (∃ vpn, start ≤ vpn * pageSize ∧ vpn * pageSize < stop ∧ ms.meaning vpn = none) →
      protectRange refCount ms start stop flags = .error .ENOMEM) ∧
    (∀ addr, (ms.splitAreaAt addr).meaning = ms.meaning) ∧
    ms.coalesceAreas.meaning = ms.meaning ∧
    ∀ lo up, (ms.coalesceChangedRange lo up).meaning = ms.meaning := by
  refine ⟨fun hle => ?_, fun hlt => ?_, fun refCount flags ms' h vpn => ?_, fun refCount flags hn => ?_,
    splitAreaAt_meaning hw, coalesceAreas_meaning hw, coalesceChangedRange_meaning hw⟩
  case refine_1 => simp [unmapRange, hle]
  case refine_2 =>
    have hok : ∃ ms', ms.unmapRange start stop = .ok ms' := by
      simp [unmapRange, hs, he, Nat.not_le_of_lt hlt]
    obtain ⟨ms', hok⟩ := hok
    exact ⟨ms', hok, unmapRange_meaning hw hs he hok⟩
  case refine_3 =>
    obtain ⟨hin, hout⟩ := protectRange_meaning hw hs he h vpn
    split
    case isFalse hr => exact hout hr
    case isTrue hr =>
      have hcovered := protectRange_covered h
      obtain ⟨view, hv⟩ := Option.ne_none_iff_exists'.mp
        ((rangeCovered_pages hw hs he).mp hcovered vpn hr.1 hr.2)
      have hin := hin hr
      rw [hv, Option.map_some, Option.map_eq_some_iff] at hin
      obtain ⟨view', hv', heq⟩ := hin
      simp only [Prod.mk.injEq] at heq
      refine ⟨view, view'.flags, hv, ?_, heq.1⟩
      rw [hv', ← heq.2.1, ← heq.2.2]
  case refine_4 =>
    obtain ⟨vpn, h₁, h₂, hn⟩ := hn
    have hnc : ¬ms.rangeCovered start stop := fun hc =>
      (rangeCovered_pages hw hs he).mp hc vpn h₁ h₂ hn
    have hlt : ¬stop ≤ start := by omega
    simp [protectRange, hs, he, hlt, hnc]

-- Unmapping the first one of two pages.
def twoPages : MemorySet where
  pageTable := .empty
  areas := [.withBacking 0x1000 0x3000 { PTEFlags.empty with v := true, r := true, u := true } .anonymous]

theorem unmap_first_page : ∃ ms', twoPages.unmapRange 0x1000 0x2000 = .ok ms' ∧
    ms'.meaning 1 = none ∧ ms'.meaning 2 = twoPages.meaning 2 := by
  have hrange : pageRange 0x1000 0x3000 = some (0x1000, 0x3000) := by decide_cbv
  have hwf : twoPages.WF :=
    ⟨by simpa [twoPages] using withBacking_wf hrange _ _, List.pairwise_singleton ..⟩
  obtain ⟨_, hunmap, _⟩ := range_operations_pointwise twoPages hwf 0x1000 0x2000 rfl rfl
  obtain ⟨ms', hok, hmeaning⟩ := hunmap (by decide)
  exact ⟨ms', hok, hmeaning 1, hmeaning 2⟩

end MemorySet

end WllOs
