import WllOs.Mm.SharedWriteback
import WllOs.Mm.Theorems.Publish

namespace WllOs

variable {area : MapArea} {mem : Ppn → Page} {start stop index lo up bound : Nat} {target : Option FileDescriptor}

-- The bytes of a page that are to be written to its file, at the position that the file takes.
def SharedPage.toWrite (mem : Ppn → Page) (page : SharedPage) : FileWrite :=
  (page.file, min page.position Usize.max, ((List.ofFn (mem page.frame)).drop page.off).take page.length)

-- Only the indices that give something matter.
theorem filterMap_range_eq {α : Type} (f : Nat → Option α) (lo up bound : Nat)
    (h : ∀ n, f n ≠ none → lo ≤ n ∧ n < up ∧ n < bound) :
    (List.range' lo (up - lo)).filterMap f = (List.range bound).filterMap f := by
  have hnil (a k : Nat) (hn : ∀ n, a ≤ n → n < a + k → f n = none) : (List.range' a k).filterMap f = [] := by
    rw [List.filterMap_eq_nil_iff]
    intro n hm
    have := List.mem_range'_1.mp hm
    exact hn n this.left this.right
  have hout (n : Nat) (hn : n < lo ∨ up ≤ n ∨ bound ≤ n) : f n = none := by
    by_contra hf
    have := h n hf
    omega
  by_cases hl : lo ≤ up
  case neg =>
    rw [Nat.sub_eq_zero_of_le (by omega), List.range_eq_range', hnil 0 bound fun n _ _ => hout n (by omega)]
    rfl
  case pos =>
    -- Both lists are what the indices below a common bound give.
    have hleft : (List.range' lo (up - lo)).filterMap f = (List.range' 0 (max up bound)).filterMap f := by
      have hs : List.range' 0 (max up bound) =
          List.range' 0 lo ++ (List.range' lo (up - lo) ++ List.range' up (max up bound - up)) := by
        rw [← RunMap.range'_split hl (Nat.le_max_left ..)]
        exact RunMap.range'_split (Nat.zero_le lo) (Nat.le_trans hl (Nat.le_max_left ..))
      rw [hs, List.filterMap_append, List.filterMap_append, hnil 0 lo fun n _ _ => hout n (by omega),
        hnil up _ fun n _ _ => hout n (by omega)]
      simp
    have hright : (List.range bound).filterMap f = (List.range' 0 (max up bound)).filterMap f := by
      have hs : List.range' 0 (max up bound) = List.range' 0 bound ++ List.range' bound (max up bound - bound) :=
        RunMap.range'_split (Nat.zero_le bound) (Nat.le_max_right ..)
      rw [hs, List.filterMap_append, hnil bound _ fun n _ _ => hout n (by omega), List.range_eq_range']
      simp
    rw [hleft, hright]

namespace MapArea

theorem WF.page_le (h : area.WF) (hi : index < area.pageCount) :
    area.startVa + index * pageSize + pageSize ≤ area.endVa := by
  have hs := h.start_aligned
  have he := h.end_aligned
  have hl := h.start_lt_end
  simp only [pageCount, size, pageSize] at *
  omega

theorem areaFileWrites_eq (h : area.WF) (mem : Ppn → Page) (start stop : Nat) :
    areaFileWrites mem start stop area = (area.sharedPages start stop none).map (·.toWrite mem) := by
  by_cases hb : ∃ file offset, area.backing = .file file offset true
  case neg =>
    cases hn : area.backing
    case file file offset shared => cases shared <;> simp_all [areaFileWrites, sharedPages]
    all_goals simp [areaFileWrites, sharedPages, hn]
  case pos =>
    have ⟨file, offset, hb⟩ := hb
    simp only [areaFileWrites, sharedPages, hb, Option.all_none, Bool.and_true]
    by_cases hw : area.flags.w
    case neg => simp [hw]
    case pos =>
      have hlookup (n : Nat) (hn : area.resident.lookup n ≠ none) : n < area.pageCount := h.index_lt n hn
      have hmax := h.end_le_max
      simp only [hw, Bool.not_true, Bool.or_false, if_true]
      split
      case isTrue ho =>
        -- No page of the area lies in the range.
        symm
        rw [List.map_eq_nil_iff, List.filterMap_eq_nil_iff]
        intro n hn
        have hp := h.page_le (List.mem_range.mp hn)
        simp only [rangesOverlap, Bool.not_eq_true', Bool.and_eq_false_iff, decide_eq_false_iff_not, Nat.not_lt] at ho
        cases area.resident.lookup n
        case none => rfl
        case some page => rw [Option.bind_some, if_neg (by omega)]
      case isFalse ho =>
        rw [ResidentSet.iterRange_eq h.resident, List.filterMap_filterMap, List.map_filterMap]
        simp only [rangesOverlap, Bool.not_eq_true', Bool.and_eq_false_iff, decide_eq_false_iff_not, Nat.not_lt] at ho
        have hsum : min stop area.endVa - area.startVa + (pageSize - 1) ≤ Usize.max := by
          have he := h.end_aligned
          have hm : Usize.max = 2 ^ 64 - 1 := by simp [Usize.max]
          simp only [pageSize] at he ⊢
          omega
        rw [Usize.saturatingAdd_eq hsum]
        rw [← filterMap_range_eq _ ((alignDown (max start area.startVa) - area.startVa) / pageSize)
          ((min stop area.endVa - area.startVa + (pageSize - 1)) / pageSize) area.pageCount fun n hn => ?_]
        case _ =>
          refine List.filterMap_congr fun n _ => ?_
          cases hr : area.resident.lookup n
          case none => rfl
          case some page =>
            have hp := h.page_le (hlookup n (by simp [hr]))
            rw [Option.map_some, Option.bind_some, Option.bind_some]
            dsimp only
            have hlower : max (max start area.startVa) (area.startVa + n * pageSize) =
                max start (area.startVa + n * pageSize) := by omega
            have hupper : min (min stop area.endVa) (area.startVa + n * pageSize + pageSize) =
                min stop (area.startVa + n * pageSize + pageSize) := by omega
            rw [Usize.saturatingAdd_eq (by omega), Usize.saturatingAdd_eq (by omega), hlower, hupper]
            by_cases hc : max start (area.startVa + n * pageSize) < min stop (area.startVa + n * pageSize + pageSize)
            case pos =>
              rw [if_neg (Nat.not_le.mpr hc), if_pos hc]
              rfl
            case neg =>
              rw [if_pos (Nat.not_lt.mp hc), if_neg hc]
              rfl
        case _ =>
          cases hr : area.resident.lookup n
          case none => simp [hr] at hn
          case some page =>
            have hp := h.page_le (hlookup n (by simp [hr]))
            have hc : max start (area.startVa + n * pageSize) < min stop (area.startVa + n * pageSize + pageSize) := by
              by_contra hc
              simp [hr, hc] at hn
            have hd : alignDown (max start area.startVa) ≤ max start area.startVa := alignDown_le
            refine ⟨?_, ?_, hlookup n (by simp [hr])⟩
            case refine_1 =>
              apply Nat.le_of_lt_succ
              rw [Nat.div_lt_iff_lt_mul pageSize_pos, Nat.succ_mul]
              omega
            case refine_2 =>
              apply Nat.lt_of_succ_le
              rw [Nat.le_div_iff_mul_le pageSize_pos, Nat.succ_mul]
              omega

theorem sharedPages_target (area : MapArea) (start stop : Nat) (target : Option FileDescriptor) :
    area.sharedPages start stop target =
      if area.mapsTarget target then area.sharedPages start stop none else [] := by
  simp only [sharedPages, mapsTarget]
  split
  case h_1 file _ hb =>
    rw [hb]
    by_cases ht : target.all file.sameFileIdentity <;> simp [ht]
  case h_2 => simp

theorem mem_sharedPages {page : SharedPage} (h : page ∈ area.sharedPages start stop target) :
    ∃ file offset index resident lower, area.backing = .file file offset true ∧ area.flags.w ∧
      index < area.pageCount ∧ area.resident.lookup index = some resident ∧
      lower = max start (area.startVa + index * pageSize) ∧ start ≤ lower ∧ lower + page.length ≤ stop ∧
      0 < page.length ∧ lower + page.length ≤ area.startVa + index * pageSize + pageSize ∧
      page = ⟨file, offset + (lower - area.startVa), page.length, resident.frame,
        lower - (area.startVa + index * pageSize)⟩ := by
  simp only [sharedPages] at h
  split at h
  case h_2 => cases h
  case h_1 file offset hb =>
    split at h
    case isFalse => cases h
    case isTrue hw =>
      have ⟨index, hi, h⟩ := List.mem_filterMap.mp h
      have ⟨resident, hr, h⟩ := Option.bind_eq_some_iff.mp h
      split at h
      case isFalse => cases h
      case isTrue hc =>
        cases h
        dsimp only
        exact ⟨file, offset, index, resident, _, hb, (Bool.and_eq_true_iff.mp hw).left, List.mem_range.mp hi, hr, rfl,
          Nat.le_max_left .., by omega, by omega, by omega, rfl⟩

end MapArea

namespace WritebackRegion

variable {region : WritebackRegion} {page : SharedPage}

theorem collect_eq (region : WritebackRegion) (h : ∀ area ∈ region.ms.areas, area.WF) (mem : Ppn → Page) :
    collectSharedFileWritesFor region.ms mem region.start region.stop region.target =
      region.sharedPages.map (·.toWrite mem) := by
  simp only [collectSharedFileWritesFor, sharedPages]
  generalize region.ms.areas = areas at h
  induction areas
  case nil => rfl
  case cons area areas hi =>
    rw [List.flatMap_cons, List.map_append, area.sharedPages_target, ← hi fun a ha => h a (List.mem_cons_of_mem _ ha),
      List.filter_cons]
    split
    case isTrue =>
      rw [List.flatMap_cons, MapArea.areaFileWrites_eq (h area List.mem_cons_self)]
    case isFalse => rfl

theorem length_pos (h : page ∈ region.sharedPages) : 0 < page.length ∧ page.off + page.length ≤ pageSize := by
  have ⟨area, _, hp⟩ := List.mem_flatMap.mp h
  have ⟨_, _, _, _, _, _, _, _, _, _, _, _, hl, he, hp⟩ := MapArea.mem_sharedPages hp
  rw [hp]
  exact ⟨hl, by dsimp only; omega⟩

-- The mapping puts each byte of a page where the page lies in the file.
theorem maps_of_mem (hw : ∀ area ∈ region.ms.areas, area.WF) (h : page ∈ region.sharedPages)
    (hm : page.position + page.length ≤ Usize.max) {i : Nat} (hi : i < page.length) :
    region.Maps page.file.identity (page.position + i) page.frame (page.off + i) := by
  have ⟨area, ha, hp⟩ := List.mem_flatMap.mp h
  have ⟨file, offset, index, resident, lower, hb, hf, hx, hr, hl, hs, he, _, hle, hp⟩ := MapArea.mem_sharedPages hp
  have hwf := hw area ha
  have hend := hwf.page_le hx
  have hstart := hwf.start_aligned
  rw [hp] at hm ⊢
  generalize page.length = length at *
  dsimp only at *
  have hpage : (lower + i) / pageSize * pageSize = area.startVa + index * pageSize := by
    simp only [pageSize] at *
    omega
  have hoff : (lower + i) % pageSize = lower - (area.startVa + index * pageSize) + i := by
    have := Nat.div_add_mod' (lower + i) pageSize
    omega
  have hview : area.view ((lower + i) / pageSize) = some {
      flags := area.flags
      backing := area.backing.page (area.startVa + index * pageSize - area.startVa)
      page := some resident } := by
    rw [MapArea.view, hpage, if_pos (by have := pageSize_pos; omega), Nat.add_sub_cancel_left,
      Nat.mul_div_cancel _ pageSize_pos, hr]
  refine ⟨lower + i, _, resident, offset + index * pageSize, by omega, by omega, ⟨area, ha, hview⟩, hf, ?_, rfl,
    rfl, hoff, by omega⟩
  rw [hb, MapAreaBacking.page, Nat.add_sub_cancel_left, Usize.saturatingAdd_eq (by omega)]

end WritebackRegion

end WllOs
