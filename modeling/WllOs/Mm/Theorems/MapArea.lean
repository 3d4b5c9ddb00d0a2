import WllOs.Mm.MapArea
import WllOs.Mm.Theorems.ResidentSet

namespace WllOs

namespace MapAreaBacking

variable {backing next : MapAreaBacking} {delta delta' len : Nat}

@[simp]
theorem page_isPrivate : (backing.page delta).isPrivate = backing.isPrivate := by
  cases backing
  case file shared => cases shared <;> rfl
  all_goals rfl

@[simp]
theorem splitRight_isPrivate : (backing.splitRight delta).isPrivate = backing.isPrivate := by
  cases backing
  case file shared => cases shared <;> rfl
  all_goals rfl

theorem splitRight_page : (backing.splitRight delta).page delta' = backing.page (delta + delta') := by
  cases backing <;> simp [splitRight, page, Usize.saturatingAdd_assoc]

theorem page_of_canMergeWith (h : backing.canMergeWith len next) (delta : Nat) :
    next.page delta = backing.page (len + delta) := by
  cases backing <;> cases next <;> simp_all [canMergeWith, page]
  case file =>
    rw [← h.2, Usize.saturatingAdd_assoc, FileDescriptor.identity_eq h.1.2]
    exact ⟨rfl, rfl⟩
  case sharedMemory => rw [← h.2, Usize.saturatingAdd_assoc]

theorem isPrivate_of_canMergeWith (h : backing.canMergeWith len next) :
    next.isPrivate = backing.isPrivate := by
  have hp := page_of_canMergeWith h 0
  rw [← page_isPrivate, hp, page_isPrivate]

end MapAreaBacking

namespace MapArea

variable {area left right next : MapArea} {vpn va n : Nat} {view : PageView} {page : ResidentPage}

theorem view_eq_some : area.view vpn = some view ↔
    area.startVa ≤ vpn * pageSize ∧ vpn * pageSize < area.endVa ∧
    view = {
      flags := area.flags
      backing := area.backing.page (vpn * pageSize - area.startVa)
      page := area.resident.lookup ((vpn * pageSize - area.startVa) / pageSize)
    } := by
  simp only [MapArea.view, Option.ite_none_right_eq_some, Option.some.injEq, and_assoc]
  rw [eq_comm (a := view)]

theorem view_eq_none : area.view vpn = none ↔
    ¬(area.startVa ≤ vpn * pageSize ∧ vpn * pageSize < area.endVa) := by
  simp [MapArea.view]

namespace WF

theorem withBacking {startVa endVa : Nat} {flags : PTEFlags} {backing : MapAreaBacking}
    (hs : startVa % pageSize = 0) (he : endVa % pageSize = 0) (hlt : startVa < endVa)
    (hle : endVa ≤ Usize.max) : (withBacking startVa endVa flags backing).WF where
  start_aligned := hs
  end_aligned   := he
  start_lt_end  := hlt
  end_le_max    := hle
  resident      := .new
  index_lt      := by simp [MapArea.withBacking]
  cow_private   := by simp [MapArea.withBacking]

theorem pageCount_mul (h : area.WF) : area.pageCount * pageSize = area.endVa - area.startVa := by
  have := h.start_aligned
  have := h.end_aligned
  simp only [pageCount, size, pageSize] at *
  omega

theorem pageCount_pos (h : area.WF) : 0 < area.pageCount := by
  have := h.pageCount_mul
  have := h.start_lt_end
  simp only [pageSize] at *
  omega

theorem pageCount_lt_max (h : area.WF) : area.pageCount < Usize.max := by
  have := h.pageCount_mul
  have := h.start_lt_end
  have := h.end_le_max
  simp only [pageSize] at *
  omega

-- Changes of the resident pages keep an area well-formed.
theorem setResident (h : area.WF) {resident : ResidentSet} (hw : resident.WF)
    (hi : ∀ n, resident.lookup n ≠ none → n < area.pageCount)
    (hc : ∀ n page, resident.lookup n = some page → page.state = .cow → area.backing.isPrivate) :
    { area with resident }.WF where
  start_aligned := h.start_aligned
  end_aligned   := h.end_aligned
  start_lt_end  := h.start_lt_end
  end_le_max    := h.end_le_max
  resident      := hw
  index_lt      := hi
  cow_private   := hc

end WF

-- The effect of splitting an area at an address inside of it.
structure Split (area : MapArea) (va : Nat) (left right : MapArea) : Prop where
  left_wf     : left.WF
  right_wf    : right.WF
  left_start  : left.startVa = area.startVa
  left_end    : left.endVa = va
  right_start : right.startVa = va
  right_end   : right.endVa = area.endVa
  left_page   : ∀ n, left.resident.lookup n =
    if n < (va - area.startVa) / pageSize then area.resident.lookup n else none
  right_page  : ∀ n, right.resident.lookup n = area.resident.lookup (n + (va - area.startVa) / pageSize)
  view        : ∀ vpn, area.view vpn = (left.view vpn).or (right.view vpn)
  pages       : (left.resident.iter ++ right.resident.iter).Perm area.resident.iter

theorem splitResident_ok (h : area.WF) (hn : 0 < n) :
    ∃ left right, area.splitResident n = .ok (some (left, right)) ∧ left.WF ∧ right.WF ∧
    (∀ m, left.lookup m = if m < n then area.resident.lookup m else none) ∧
    (∀ m, right.lookup m = area.resident.lookup (m + n)) ∧
    (left.iter ++ right.iter).Perm area.resident.iter := by
  by_cases he : area.resident.isEmpty
  case pos =>
    have hnew := h.resident.isEmpty_iff.mp he
    refine ⟨area.resident, .new, by simp [splitResident, he], h.resident, .new, ?_, ?_, ?_⟩
    all_goals simp [hnew]
  case neg =>
    have ⟨left, right, heq, hs⟩ := ResidentSet.splitOff_ok h.resident hn
    exact ⟨left, right, by simp [splitResident, he, heq], hs⟩

theorem splitAt_ok (h : area.WF) (hs : area.startVa < va) (he : va < area.endVa)
    (ha : va % pageSize = 0) :
    ∃ left right, area.splitAt va = .ok (some (left, right)) ∧ area.Split va left right ∧
    left.flags = area.flags ∧ left.backing = area.backing ∧ right.flags = area.flags ∧
    right.backing = area.backing.splitRight (va - area.startVa) := by
  have hsa := h.start_aligned
  have hidx : 0 < (va - area.startVa) / pageSize := by simp only [pageSize] at *; omega
  obtain ⟨left, right, heq, hlw, hrw, hl, hr, hp⟩ := splitResident_ok h hidx
  have hsplit : area.splitAt va = .ok (some (
      { area with endVa := va, resident := left },
      ⟨va, area.endVa, area.flags, right, area.backing.splitRight (va - area.startVa)⟩)) := by
    simp only [splitAt, Nat.not_le_of_lt hs, Nat.not_le_of_lt he, decide_false, Bool.or_self,
      Bool.false_eq_true, ite_false, ha, ne_eq, not_true_eq_false, heq]
    rfl
  refine ⟨_, _, hsplit, ⟨?_, ?_, rfl, rfl, rfl, rfl, hl, hr, ?_, hp⟩, rfl, rfl, rfl, rfl⟩
  case refine_1 =>
    refine ⟨hsa, ha, hs, he.le.trans h.end_le_max, hlw, fun m hm => ?_, fun m page hm hc => ?_⟩
    case refine_1 =>
      have : m < (va - area.startVa) / pageSize := by_contra fun hlt => hm (by simp [hl, hlt])
      exact this
    case refine_2 =>
      rw [hl] at hm
      split at hm
      case isTrue => exact h.cow_private m page hm hc
      case isFalse => cases hm
  case refine_2 =>
    refine ⟨ha, h.end_aligned, he, h.end_le_max, hrw, fun m hm => ?_, fun m page hm hc => ?_⟩
    case refine_1 =>
      rw [hr] at hm
      have hlt := h.index_lt _ hm
      simp only [pageCount, size, pageSize] at *
      omega
    case refine_2 =>
      rw [hr] at hm
      simpa using h.cow_private _ page hm hc
  case refine_3 =>
    intro vpn
    simp only [MapArea.view, hl, hr]
    by_cases hv : vpn * pageSize < va
    case pos =>
      have hlt : (vpn * pageSize - area.startVa) / pageSize < (va - area.startVa) / pageSize ∨
          vpn * pageSize < area.startVa := by simp only [pageSize] at *; omega
      have hend := hv.trans he
      by_cases hst : area.startVa ≤ vpn * pageSize
      case pos => simp [hv, hend, hst, hlt.resolve_right (Nat.not_lt_of_le hst)]
      case neg => simp [hst, Nat.not_le_of_lt hv]
    case neg =>
      have hv := Nat.le_of_not_lt hv
      have hidx : (vpn * pageSize - va) / pageSize + (va - area.startVa) / pageSize =
          (vpn * pageSize - area.startVa) / pageSize := by simp only [pageSize] at *; omega
      have hdelta : va - area.startVa + (vpn * pageSize - va) = vpn * pageSize - area.startVa := by
        omega
      simp [Nat.not_lt_of_le hv, hv, hs.le.trans hv, hidx, MapAreaBacking.splitRight_page, hdelta]

theorem splitAt_none (area : MapArea) (va : Nat) (h : ¬(area.startVa < va ∧ va < area.endVa) ∨ va % pageSize ≠ 0) :
    area.splitAt va = .ok none := by
  by_cases hr : area.startVa < va ∧ va < area.endVa
  case pos =>
    have := h.resolve_left (not_not_intro hr)
    simp [splitAt, Nat.not_le_of_lt hr.1, Nat.not_le_of_lt hr.2, this]
  case neg =>
    have : va ≤ area.startVa ∨ area.endVa ≤ va := by omega
    simp [splitAt, this]

-- The effect of merging an area with the one that follows it.
structure Merged (area next merged : MapArea) : Prop where
  wf       : merged.WF
  startVa  : merged.startVa = area.startVa
  endVa    : merged.endVa = next.endVa
  flags    : merged.flags = area.flags
  backing  : merged.backing = area.backing
  page     : ∀ n, merged.resident.lookup n =
    if area.pageCount ≤ n then next.resident.lookup (n - area.pageCount) else area.resident.lookup n
  view     : ∀ vpn, merged.view vpn = (area.view vpn).or (next.view vpn)
  pages    : merged.resident.iter.Perm (area.resident.iter ++ next.resident.iter)

theorem mergeWith_ok (h : area.WF) (hn : next.WF) (hm : area.canMergeWith next) :
    ∃ merged, area.mergeWith next = .ok merged ∧ area.Merged next merged := by
  simp only [canMergeWith, Bool.and_eq_true, decide_eq_true_eq] at hm
  obtain ⟨⟨hend, hflags⟩, hback⟩ := hm
  have hcount := h.pageCount_mul
  have hcount' := hn.pageCount_mul
  have hmax := hn.end_le_max
  have hlt := h.start_lt_end
  have hlt' := hn.start_lt_end
  have ⟨set, heq, hw, hl, hp⟩ := ResidentSet.mergeFromAt_ok area.pageCount h.resident hn.resident
    h.index_lt fun n hlk => by
      have := hn.index_lt n hlk
      simp only [pageSize] at *
      omega
  refine ⟨{ area with endVa := next.endVa, resident := set }, ?_, ?_⟩
  case refine_1 => simp only [mergeWith, heq]; rfl
  case refine_2 =>
    refine ⟨⟨h.start_aligned, hn.end_aligned, by simp only; omega, hmax, hw, fun m hm => ?_,
      fun m page hm hc => ?_⟩, rfl, rfl, rfl, rfl, hl, fun vpn => ?_, hp⟩
    case refine_1 =>
      rw [hl] at hm
      split at hm
      case isTrue =>
        have := hn.index_lt _ hm
        simp only [pageCount, size, pageSize] at *
        omega
      case isFalse =>
        have := h.index_lt _ hm
        simp only [pageCount, size, pageSize] at *
        omega
    case refine_2 =>
      rw [hl] at hm
      split at hm
      case isTrue =>
        exact MapAreaBacking.isPrivate_of_canMergeWith hback ▸ hn.cow_private _ page hm hc
      case isFalse => exact h.cow_private _ page hm hc
    case refine_3 =>
      simp only [MapArea.view, hl]
      by_cases hv : vpn * pageSize < area.endVa
      case pos =>
        have hidx : ¬area.pageCount ≤ (vpn * pageSize - area.startVa) / pageSize ∨
            vpn * pageSize < area.startVa := by simp only [pageSize] at *; omega
        by_cases hst : area.startVa ≤ vpn * pageSize
        case pos =>
          simp [hst, hv, hidx.resolve_right (Nat.not_lt_of_le hst),
            show vpn * pageSize < next.endVa by omega]
        case neg => simp [hst, show ¬(next.startVa ≤ vpn * pageSize) by omega]
      case neg =>
        have hidx : area.pageCount ≤ (vpn * pageSize - area.startVa) / pageSize := by
          simp only [pageSize] at *; omega
        have hsub : (vpn * pageSize - area.startVa) / pageSize - area.pageCount =
            (vpn * pageSize - next.startVa) / pageSize := by simp only [pageSize] at *; omega
        have hdelta : area.size + (vpn * pageSize - next.startVa) = vpn * pageSize - area.startVa := by
          simp only [size]; omega
        simp [hv, show area.startVa ≤ vpn * pageSize by omega, hidx, hsub, hflags,
          MapAreaBacking.page_of_canMergeWith hback, hdelta,
          show next.startVa ≤ vpn * pageSize by omega]

-- Operations on the resident pages of an area.

theorem insertResidentPage_ok (frame : Ppn) (state : PageState) (h : area.WF) (hn : n < area.pageCount)
    (hf : area.resident.lookup n = none) (hs : state = .cow → area.backing.isPrivate) :
    ∃ resident, area.insertResidentPage n frame state = .ok { area with resident } ∧
    { area with resident }.WF ∧
    ∀ m, resident.lookup m = if m = n then some ⟨frame, state⟩ else area.resident.lookup m := by
  have ⟨set, he, hi⟩ := ResidentSet.insertPageWithState_ok ⟨frame, state⟩ h.resident
    (hn.trans h.pageCount_lt_max) hf
  have hl : ∀ m, set.lookup m = if m = n then some ⟨frame, state⟩ else area.resident.lookup m := by
    intro m
    rw [hi.lookup]
    by_cases hm : m = n
    case pos => simp [hm, RunMap.at?]
    case neg => rw [RunMap.at?_eq_none.mpr (by simp; omega)]; simp [hm]
  refine ⟨set, by simp [insertResidentPage, he], h.setResident hi.wf (fun m hm => ?_)
    (fun m page hm hc => ?_), hl⟩
  case refine_1 =>
    rw [hl] at hm
    split at hm
    case isTrue he => exact he ▸ hn
    case isFalse => exact h.index_lt m hm
  case refine_2 =>
    rw [hl] at hm
    split at hm
    case isTrue => cases hm; exact hs hc
    case isFalse => exact h.cow_private m page hm hc

theorem insertResidentRun_ok {frames : List Ppn} (state : PageState) (h : area.WF) (hp : frames ≠ [])
    (hb : n + frames.length ≤ area.pageCount)
    (hf : ∀ i, n ≤ i → i < n + frames.length → area.resident.lookup i = none)
    (hs : state = .cow → area.backing.isPrivate) :
    ∃ resident, area.insertResidentRun n frames state = .ok { area with resident } ∧
    { area with resident }.WF ∧
    area.resident.Inserted n (frames.map (⟨·, state⟩)) resident := by
  have ⟨set, he, hi⟩ := ResidentSet.insertRunWithState_ok n frames state h.resident hp
    (hb.trans h.pageCount_lt_max.le) hf
  refine ⟨set, by simp [insertResidentRun, he], h.setResident hi.wf (fun m hm => ?_)
    (fun m page hm hc => ?_), hi⟩
  case refine_1 =>
    rw [hi.lookup] at hm
    cases ha : RunMap.at? (n, frames.map (⟨·, state⟩ : Ppn → ResidentPage)) m
    case none => exact h.index_lt m (by simpa [ha] using hm)
    case some =>
      have := RunMap.at?_bounds ha
      simp only [List.length_map] at this
      omega
  case refine_2 =>
    rw [hi.lookup] at hm
    cases ha : RunMap.at? (n, frames.map (⟨·, state⟩ : Ppn → ResidentPage)) m
    case none => exact h.cow_private m page (by simpa [ha] using hm) hc
    case some =>
      rw [ha, Option.some_or, Option.some.injEq] at hm
      have := List.mem_of_getElem? (RunMap.at?_eq_some.mp (hm ▸ ha)).2
      simp only [List.mem_map] at this
      have ⟨_, _, he⟩ := this
      exact hs (by rw [← hc, ← he])

theorem appendResident_ok (frame : Ppn) (h : area.WF) (hl : ∀ i, n ≤ i → area.resident.lookup i = none)
    (hc : area.resident.len = n) (hn : n < area.pageCount) :
    ∃ resident, area.appendResident frame = .ok (.ok { area with resident }) ∧
    { area with resident }.WF ∧ resident.len = n + 1 ∧
    ∀ m, resident.lookup m = if m = n then some (.new frame) else area.resident.lookup m := by
  have hb := hn.trans h.pageCount_lt_max
  have ⟨set, he, hi⟩ := ResidentSet.insert_ok frame h.resident hb (hl n (le_refl n))
  have hlk : ∀ m, set.lookup m = if m = n then some (.new frame) else area.resident.lookup m := by
    intro m
    rw [hi.lookup]
    by_cases hm : m = n
    case pos => simp [hm, RunMap.at?]
    case neg => rw [RunMap.at?_eq_none.mpr (by simp; omega)]; simp [hm]
  refine ⟨set, ?_, h.setResident hi.wf (fun m hm => ?_) (fun m page hm hc => ?_), ?_, hlk⟩
  case refine_1 => simp only [appendResident, hc, he]; rfl
  case refine_4 =>
    have hlen := hi.iter.length_eq
    rw [List.length_append, List.length_singleton] at hlen
    rw [ResidentSet.len, hi.wf.count_eq, ← hc, ResidentSet.len, h.resident.count_eq]
    exact hlen
  case refine_2 =>
    rw [hlk] at hm
    split at hm
    case isTrue he => exact he ▸ hn
    case isFalse => exact h.index_lt m hm
  case refine_3 =>
    rw [hlk] at hm
    split at hm
    case isTrue => cases hm; cases hc
    case isFalse => exact h.cow_private m page hm hc

-- Assignments to a resident page.
theorem WF.update (h : area.WF) {f : ResidentPage → ResidentPage}
    (hf : ∀ page, area.resident.lookup n = some page → (f page).state = .cow → area.backing.isPrivate) :
    { area with resident := area.resident.update n f }.WF := by
  refine h.setResident (ResidentSet.update_wf h.resident) (fun m hm => ?_) (fun m page hm hc => ?_)
  case refine_1 =>
    refine h.index_lt m fun hn => hm ?_
    rw [ResidentSet.update_lookup h.resident, hn]
    simp
  case refine_2 =>
    rw [ResidentSet.update_lookup h.resident] at hm
    split at hm
    case isFalse => exact h.cow_private m page hm hc
    case isTrue he =>
      have ⟨old, ho, hp⟩ := Option.map_eq_some_iff.mp hm
      exact hf old (he ▸ ho) (hp ▸ hc)

theorem WF.setAllResidentState {state : PageState} (h : area.WF)
    (hs : state = .cow → area.backing.isPrivate) : (area.setAllResidentState state).WF := by
  refine h.setResident (ResidentSet.updateAll_wf h.resident) (fun m hm => ?_) (fun m page hm hc => ?_)
  case refine_1 =>
    refine h.index_lt m fun hn => hm ?_
    simp [hn]
  case refine_2 =>
    rw [ResidentSet.updateAll_lookup] at hm
    have ⟨_, _, hp⟩ := Option.map_eq_some_iff.mp hm
    exact hs (by rw [← hc, ← hp])

theorem replaceResident_ok {frames : List Ppn} (h : area.WF) (hlen : frames.length = area.pageCount) :
    ∃ resident, area.replaceResident frames = .ok ({ area with resident }, area.resident) ∧
    { area with resident }.WF ∧ (∀ m, resident.lookup m = frames[m]?.map .new) ∧
    resident.iter.Perm (frames.map .new) := by
  have hpos : 0 < frames.length := hlen ▸ h.pageCount_pos
  obtain ⟨set, he, hi⟩ := ResidentSet.insertRun_ok 0 frames .new
    (List.length_pos_iff.mp hpos) (by have := h.pageCount_lt_max; omega) (by simp)
  have hl : ∀ m, set.lookup m = frames[m]?.map .new := fun m => by simp [hi.lookup, RunMap.at?]
  refine ⟨set, ?_, h.setResident hi.wf (fun m hm => ?_) (fun m page hm hc => ?_), hl,
    by simpa using hi.iter⟩
  case refine_1 => simp only [replaceResident, ResidentSet.replaceAll, he]; rfl
  case refine_2 =>
    rw [hl, ne_eq, Option.map_eq_none_iff, List.getElem?_eq_none_iff] at hm
    omega
  case refine_3 =>
    rw [hl, Option.map_eq_some_iff] at hm
    obtain ⟨_, _, he⟩ := hm
    simp [← he, ResidentPage.new] at hc

theorem extractResidentRange_ok {lo up : Nat} (h : area.WF) (hr : lo ≤ up) :
    ∃ resident extracted, area.extractResidentRange lo up = .ok ({ area with resident }, extracted) ∧
    { area with resident }.WF ∧ extracted.WF ∧
    (∀ n, resident.lookup n = if lo ≤ n ∧ n < up then none else area.resident.lookup n) ∧
    (resident.iter ++ extracted.iter).Perm area.resident.iter := by
  have ⟨set, ex, he, hw, hw', hl, _, hp⟩ := ResidentSet.extractRange_ok h.resident hr
  have hsome : ∀ n page, set.lookup n = some page → area.resident.lookup n = some page :=
    fun n page hn => by
      rw [hl] at hn
      split at hn
      case isTrue => cases hn
      case isFalse => exact hn
  refine ⟨set, ex, ?_, h.setResident hw (fun m hm => ?_) (fun m page hm hc => ?_), hw', hl, hp⟩
  case refine_1 => simp only [extractResidentRange, he]; rfl
  case refine_2 =>
    have ⟨page, hpage⟩ := Option.ne_none_iff_exists'.mp hm
    exact h.index_lt m (by simp [hsome m page hpage])
  case refine_3 => exact h.cow_private m page (hsome m page hm) hc

end MapArea

end WllOs
