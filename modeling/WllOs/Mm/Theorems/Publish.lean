import WllOs.Mm.Coherence
import WllOs.Mm.Theorems.MapArea

namespace WllOs

variable {area : MapArea} {pageTable : PageTable} {vpn n lo up : Nat}
variable {page : ResidentPage} {flags : PTEFlags}

namespace ResidentSet

variable {self : ResidentSet}

theorem mem_iterRange (h : self.WF) {entry : Nat × ResidentPage} :
    entry ∈ self.iterRange lo up ↔
    lo ≤ entry.1 ∧ entry.1 < up ∧ self.lookup entry.1 = some entry.2 := by
  rw [iterRange_eq h]
  simp only [List.mem_filterMap, List.mem_range'_1, Option.map_eq_some_iff]
  constructor
  case mp =>
    rintro ⟨n, hn, page, hp, rfl⟩
    exact ⟨by omega, by omega, hp⟩
  case mpr =>
    rintro ⟨h₁, h₂, hp⟩
    exact ⟨entry.1, by omega, entry.2, hp, rfl⟩

theorem iterRange_nodup (h : self.WF) : ((self.iterRange lo up).map (·.1)).Nodup := by
  rw [iterRange_eq h, List.map_filterMap]
  refine List.Nodup.filterMap ?_ List.nodup_range'
  intro n m k hn hm
  simp only [Option.map_map, Option.mem_def, Option.map_eq_some_iff, Function.comp_apply] at hn hm
  have ⟨_, _, hn⟩ := hn
  have ⟨_, _, hm⟩ := hm
  exact hn.trans hm.symm

end ResidentSet

namespace MapArea

variable {resident : ResidentSet}

theorem WF.vpn_eq (h : area.WF) : (area.startVa + n * pageSize) / pageSize = area.startVa / pageSize + n := by
  have := h.start_aligned
  simp only [pageSize] at *
  omega

theorem pageAt_add : area.pageAt (area.startVa / pageSize + n) = area.resident.lookup n := by
  simp [pageAt]

theorem pageAt_eq_some : area.pageAt vpn = some page ↔
    ∃ n, vpn = area.startVa / pageSize + n ∧ area.resident.lookup n = some page := by
  constructor
  case mp =>
    intro h
    simp only [pageAt, Option.ite_none_right_eq_some] at h
    exact ⟨vpn - area.startVa / pageSize, by omega, h.2⟩
  case mpr =>
    rintro ⟨n, rfl, h⟩
    rw [pageAt_add, h]

theorem contains_iff_bounds {va : Nat} : area.contains va ↔ area.startVa ≤ va ∧ va < area.endVa := by
  simp [contains]

theorem WF.pageAt_bounds (h : area.WF) (hp : area.pageAt vpn = some page) :
    area.startVa ≤ vpn * pageSize ∧ vpn * pageSize < area.endVa := by
  have ⟨n, he, hn⟩ := pageAt_eq_some.mp hp
  have hlt := h.index_lt n (by simp [hn])
  have hc := h.pageCount_mul
  have := h.start_aligned
  simp only [pageSize] at *
  omega

theorem WF.pageAt_eq (h : area.WF) (hl : area.startVa ≤ vpn * pageSize) :
    area.pageAt vpn = area.resident.lookup ((vpn * pageSize - area.startVa) / pageSize) := by
  have hs := h.start_aligned
  have hle : area.startVa / pageSize ≤ vpn := by simp only [pageSize] at *; omega
  have hidx : (vpn * pageSize - area.startVa) / pageSize = vpn - area.startVa / pageSize := by
    simp only [pageSize] at *; omega
  simp [pageAt, hle, hidx]

-- The pages of an area and its meaning agree.
theorem WF.view_page (h : area.WF) (vpn : Nat) : (area.view vpn).bind (·.page) = area.pageAt vpn := by
  by_cases hv : area.startVa ≤ vpn * pageSize ∧ vpn * pageSize < area.endVa
  case pos => simp [MapArea.view, h.pageAt_eq hv.1, hv]
  case neg =>
    rw [MapArea.view, if_neg hv]
    cases hp : area.pageAt vpn
    case none => rfl
    case some page => exact absurd (h.pageAt_bounds hp) hv

theorem WF.view_of_pageAt (h : area.WF) (hp : area.pageAt vpn = some page) :
    area.view vpn = some {
      flags := area.flags
      backing := area.backing.page (vpn * pageSize - area.startVa)
      page := some page
    } := by
  have hb := h.pageAt_bounds hp
  have hv := h.view_page vpn
  rw [hp, MapArea.view, if_pos hb, Option.bind_some] at hv
  simp only [MapArea.view, if_pos hb, ← hv]

end MapArea

-- What publishing some of the pages of an area writes to a page table.

theorem mapEntries_apply (h : area.WF) (lo up : Nat) :
    (pageTable.mapPagesWithoutFlush ((area.resident.iterRange lo up).map
      fun (idx, page) => pageEntry area idx page)) vpn =
    if area.startVa / pageSize + lo ≤ vpn ∧ vpn < area.startVa / pageSize + up then
      (area.pageAt vpn).elim (pageTable vpn) (pteOf area.flags)
    else
      pageTable vpn := by
  have hkeys : ((area.resident.iterRange lo up).map
      fun (idx, page) => pageEntry area idx page).map (·.1) =
      ((area.resident.iterRange lo up).map (·.1)).map (area.startVa / pageSize + ·) := by
    simp only [List.map_map]
    exact List.map_congr_left fun entry _ => h.vpn_eq
  have hnodup : (((area.resident.iterRange lo up).map
      fun (idx, page) => pageEntry area idx page).map (·.1)).Nodup := by
    rw [hkeys]
    exact (ResidentSet.iterRange_nodup h.resident).map fun _ _ he => Nat.add_left_cancel he
  by_cases hm : ∃ page, area.pageAt vpn = some page ∧
      area.startVa / pageSize + lo ≤ vpn ∧ vpn < area.startVa / pageSize + up
  case pos =>
    have ⟨page, hp, hr⟩ := hm
    have ⟨n, he, hn⟩ := MapArea.pageAt_eq_some.mp hp
    have hmem : (n, page) ∈ area.resident.iterRange lo up :=
      (ResidentSet.mem_iterRange h.resident).mpr ⟨by simp only; omega, by simp only; omega, hn⟩
    have hw := PageTable.mapPagesWithoutFlush_of_mem pageTable hnodup
      (List.mem_map.mpr ⟨(n, page), hmem, rfl⟩)
    have hv : (pageEntry area n page).1 = vpn := h.vpn_eq.trans he.symm
    rw [hv] at hw
    rw [hw, if_pos hr, hp]
    rfl
  case neg =>
    have hw : (pageTable.mapPagesWithoutFlush ((area.resident.iterRange lo up).map
        fun (idx, page) => pageEntry area idx page)) vpn = pageTable vpn :=
      PageTable.mapPagesWithoutFlush_of_not_mem fun p hp he => by
          have ⟨⟨n, page⟩, hmem, hentry⟩ := List.mem_map.mp hp
          have ⟨h₁, h₂, hl⟩ := (ResidentSet.mem_iterRange h.resident).mp hmem
          simp only [← hentry, pageEntry, h.vpn_eq] at he h₁ h₂ hl
          exact hm ⟨page, MapArea.pageAt_eq_some.mpr ⟨n, he.symm, hl⟩, by omega, by omega⟩
    rw [hw]
    split
    case isFalse => rfl
    case isTrue hr =>
      cases hp : area.pageAt vpn
      case none => rfl
      case some page => exact absurd ⟨page, hp, hr⟩ hm

theorem unmapEntries_apply (h : area.WF) (lo up : Nat) :
    (pageTable.unmapPagesWithoutFlush ((area.resident.iterRange lo up).map
      fun (idx, _) => (area.startVa + idx * pageSize) / pageSize)) vpn =
    if (area.pageAt vpn).isSome ∧ area.startVa / pageSize + lo ≤ vpn ∧
      vpn < area.startVa / pageSize + up then none else pageTable vpn := by
  rw [PageTable.unmapPagesWithoutFlush_apply]
  congr 1
  rw [eq_iff_iff, List.mem_map]
  constructor
  case mp =>
    rintro ⟨⟨n, page⟩, hmem, he⟩
    have ⟨h₁, h₂, hl⟩ := (ResidentSet.mem_iterRange h.resident).mp hmem
    simp only [h.vpn_eq] at he h₁ h₂ hl
    rw [MapArea.pageAt_eq_some.mpr ⟨n, he.symm, hl⟩]
    exact ⟨rfl, by omega, by omega⟩
  case mpr =>
    rintro ⟨hp, h₁, h₂⟩
    have ⟨page, hp⟩ := Option.isSome_iff_exists.mp hp
    have ⟨n, he, hn⟩ := MapArea.pageAt_eq_some.mp hp
    exact ⟨(n, page), (ResidentSet.mem_iterRange h.resident).mpr
      ⟨by simp only; omega, by simp only; omega, hn⟩, h.vpn_eq.trans he.symm⟩

-- Indices of resident pages lie inside of the area, so the range `0..page_count` covers all of them.
theorem MapArea.WF.pageAt_range (h : area.WF) (hp : area.pageAt vpn = some page) :
    area.startVa / pageSize + 0 ≤ vpn ∧ vpn < area.startVa / pageSize + area.pageCount := by
  have ⟨n, he, hn⟩ := MapArea.pageAt_eq_some.mp hp
  have := h.index_lt n (by simp [hn])
  omega

theorem mapAreaPages_apply (h : area.WF) (hl : area.flags.hasLeafPermission) :
    mapAreaPages pageTable area vpn = (area.pageAt vpn).elim (pageTable vpn) (pteOf area.flags) := by
  simp only [mapAreaPages, hl, Bool.not_true, Bool.false_eq_true, ite_false]
  rw [mapEntries_apply h]
  split
  case isTrue => rfl
  case isFalse hr =>
    cases hp : area.pageAt vpn
    case none => rfl
    case some page => exact absurd (h.pageAt_range hp) hr

theorem unmapAreaPages_apply (h : area.WF) (hl : flags.hasLeafPermission) :
    unmapAreaPages pageTable area flags vpn =
    if (area.pageAt vpn).isSome then none else pageTable vpn := by
  by_cases hf : area.hasFrames
  case pos =>
    simp only [unmapAreaPages, hl, hf, Bool.not_true, Bool.or_self, Bool.false_eq_true, ite_false]
    rw [unmapEntries_apply h]
    cases hp : area.pageAt vpn
    case none => simp
    case some page => rw [if_pos ⟨rfl, h.pageAt_range hp⟩]; rfl
  case neg =>
    have hnew : area.resident = .new := by
      simpa [MapArea.hasFrames, h.resident.isEmpty_iff] using hf
    have hn : area.pageAt vpn = none := by simp [MapArea.pageAt, hnew]
    simp [unmapAreaPages, hf, hn]

theorem unmapAreaPages_eq (hl : ¬flags.hasLeafPermission) :
    unmapAreaPages pageTable area flags = pageTable := by
  simp [unmapAreaPages, hl]

theorem mapAreaPage_apply (h : area.WF) (hl : area.flags.hasLeafPermission)
    (hp : area.resident.lookup n = some page) :
    mapAreaPage pageTable area n vpn =
    if vpn = area.startVa / pageSize + n then pteOf area.flags page else pageTable vpn := by
  simp only [mapAreaPage, hp, hl, Bool.not_true, Bool.false_eq_true, ite_false, pageEntry, h.vpn_eq,
    PageTable.mapPage]
  by_cases hv : vpn = area.startVa / pageSize + n
  case pos => simp [hv, pteOf]
  case neg => simp [hv]

theorem remapAreaPages_apply (h : area.WF) (hl : area.flags.hasLeafPermission) :
    remapAreaPages pageTable area flags vpn =
    (area.pageAt vpn).elim (pageTable vpn) (pteOf area.flags) := by
  rw [remapAreaPages, mapAreaPages_apply h hl]
  cases hp : area.pageAt vpn
  case some => rfl
  case none =>
    by_cases hf : flags.hasLeafPermission
    case pos => simp [unmapAreaPages_apply h hf, hp]
    case neg => simp [unmapAreaPages_eq hf]

end WllOs
