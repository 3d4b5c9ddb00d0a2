import WllOs.Library.Lists
import WllOs.Mm.Theorems.Publish

namespace WllOs

variable {areas areas' rest : List MapArea} {area next left right merged : MapArea}
variable {vpn addr i va : Nat} {view : PageView} {ms : MemorySet}

namespace MapArea

theorem contains_of_view (h : area.view vpn = some view) :
    area.startVa ≤ vpn * pageSize ∧ vpn * pageSize < area.endVa :=
  have ⟨hs, he, _⟩ := view_eq_some.mp h
  ⟨hs, he⟩

theorem Split.view_iff (h : area.Split va left right) :
    area.view vpn = some view ↔ left.view vpn = some view ∨ right.view vpn = some view := by
  rw [h.view]
  cases hl : left.view vpn
  case none => simp
  case some =>
    have hr : right.view vpn = none := view_eq_none.mpr fun hr => by
      have := contains_of_view hl
      have := h.left_end
      have := h.right_start
      omega
    simp [hr]

theorem Merged.view_iff (h : area.Merged next merged) (he : area.endVa = next.startVa) :
    merged.view vpn = some view ↔ area.view vpn = some view ∨ next.view vpn = some view := by
  rw [h.view]
  cases hl : area.view vpn
  case none => simp
  case some =>
    have hr : next.view vpn = none := view_eq_none.mpr fun hr => by
      have := contains_of_view hl
      omega
    simp [hr]

theorem endVa_of_canMergeWith (h : area.canMergeWith next) : area.endVa = next.startVa := by
  simp only [canMergeWith, Bool.and_eq_true, decide_eq_true_eq] at h
  exact h.1.1

end MapArea

-- The meanings that areas give to pages.

@[simp]
theorem Views.nil : ¬Views [] vpn view := by
  simp [Views]

@[simp]
theorem Views.cons : Views (area :: areas) vpn view ↔ area.view vpn = some view ∨ Views areas vpn view := by
  simp [Views]

@[simp]
theorem Views.append :
    Views (areas ++ areas') vpn view ↔ Views areas vpn view ∨ Views areas' vpn view := by
  simp [Views, or_and_right, exists_or]

theorem Views.perm (h : areas.Perm areas') : Views areas vpn view ↔ Views areas' vpn view := by
  simp only [Views, h.mem_iff]

namespace Sorted

theorem cons : Sorted (area :: areas) ↔ (∀ a ∈ areas, area.endVa ≤ a.startVa) ∧ Sorted areas :=
  List.pairwise_cons

theorem append : Sorted (areas ++ areas') ↔
    Sorted areas ∧ Sorted areas' ∧ ∀ a ∈ areas, ∀ b ∈ areas', a.endVa ≤ b.startVa :=
  List.pairwise_append

-- An area that contains an address is the only one that does.
theorem index_unique (h : Sorted areas) {a b : MapArea} {i j : Nat} (ha : areas[i]? = some a)
    (hb : areas[j]? = some b) (haddr : a.startVa ≤ addr ∧ addr < a.endVa)
    (haddr' : b.startVa ≤ addr ∧ addr < b.endVa) : i = j := by
  have ⟨hi, hgi⟩ := List.getElem?_eq_some_iff.mp ha
  have ⟨hj, hgj⟩ := List.getElem?_eq_some_iff.mp hb
  rcases Nat.lt_trichotomy i j with hlt | he | hlt
  · have := List.pairwise_iff_getElem.mp h i j hi hj hlt
    rw [hgi, hgj] at this
    omega
  · exact he
  · have := List.pairwise_iff_getElem.mp h j i hj hi hlt
    rw [hgi, hgj] at this
    omega

theorem unique (h : Sorted areas) {a b : MapArea} (ha : a ∈ areas) (hb : b ∈ areas)
    (haddr : a.startVa ≤ addr ∧ addr < a.endVa) (haddr' : b.startVa ≤ addr ∧ addr < b.endVa) : a = b := by
  have ⟨i, hi⟩ := List.mem_iff_getElem?.mp ha
  have ⟨j, hj⟩ := List.mem_iff_getElem?.mp hb
  rw [h.index_unique hi hj haddr haddr', hj, Option.some.injEq] at hi
  exact hi.symm

theorem meaning_eq_some (h : Sorted ms.areas) :
    ms.meaning vpn = some view ↔ Views ms.areas vpn view := by
  refine ⟨List.exists_of_findSome?_eq_some, ?_⟩
  rintro ⟨area, hm, hv⟩
  cases hf : ms.meaning vpn
  case none =>
    have := List.findSome?_eq_none_iff.mp hf area hm
    rw [hv] at this
    cases this
  case some view' =>
    have ⟨area', hm', hv'⟩ := List.exists_of_findSome?_eq_some hf
    have := h.unique hm hm' (MapArea.contains_of_view hv) (MapArea.contains_of_view hv')
    rw [← this, hv] at hv'
    exact hv'.symm

end Sorted

-- The range of addresses of an area.
def MapArea.range (area : MapArea) : Nat × Nat :=
  (area.startVa, area.endVa)

-- The order of the areas only depends on their ranges.
theorem Sorted.of_range (hr : areas'.map MapArea.range = areas.map MapArea.range) (h : Sorted areas) :
    Sorted areas' := by
  have hp : ∀ areas : List MapArea,
      Sorted areas ↔ (areas.map MapArea.range).Pairwise fun a b => a.2 ≤ b.1 :=
    fun areas => (List.pairwise_map (f := MapArea.range) (R := fun a b => a.2 ≤ b.1)).symm
  rwa [hp, hr, ← hp]

-- Merging neighbors.

-- What a rearrangement of the areas keeps.
structure Rearranged (areas areas' : List MapArea) : Prop where
  wf    : (∀ a ∈ areas, a.WF) → ∀ a ∈ areas', a.WF
  views : (∀ a ∈ areas, a.WF) → ∀ vpn view, Views areas' vpn view ↔ Views areas vpn view

namespace Rearranged

theorem refl (areas : List MapArea) : Rearranged areas areas where
  wf    := id
  views := fun _ _ _ => .rfl

theorem trans {areas'' : List MapArea} (h : Rearranged areas areas') (h' : Rearranged areas' areas'') :
    Rearranged areas areas'' where
  wf hw          := h'.wf (h.wf hw)
  views hw _ _ := (h'.views (h.wf hw) _ _).trans (h.views hw _ _)

theorem perm (h : areas.Perm areas') : Rearranged areas areas' where
  wf hw a ha   := hw a (h.mem_iff.mpr ha)
  views _ _ _ := Views.perm h.symm

theorem append_left (pre : List MapArea) (h : Rearranged areas areas') :
    Rearranged (pre ++ areas) (pre ++ areas') where
  wf hw a ha := by
    cases List.mem_append.mp ha
    case inl ha => exact hw a (by simp [ha])
    case inr ha => exact h.wf (fun b hb => hw b (by simp [hb])) a ha
  views hw vpn view := by
    rw [Views.append, Views.append, h.views fun b hb => hw b (by simp [hb])]

end Rearranged

theorem coalesceFrom_rearranged (bound : Option Nat) (area : MapArea) (rest : List MapArea) :
    Rearranged (area :: rest) (MemorySet.coalesceFrom bound area rest) := by
  induction rest generalizing area
  case nil => exact .refl _
  case cons next rest hi =>
    have hskip : Rearranged (area :: next :: rest) (area :: MemorySet.coalesceFrom bound next rest) :=
      (hi next).append_left [area]
    simp only [MemorySet.coalesceFrom]
    split
    case isTrue => exact .refl _
    case isFalse =>
      split
      case isFalse => exact hskip
      case isTrue hm =>
        split
        case h_2 => exact hskip
        case h_1 merged heq =>
          -- The merge succeeds for well-formed areas and yields what the lemma about it states.
          have hmerged : (∀ a ∈ area :: next :: rest, a.WF) → area.Merged next merged := fun hw => by
            have ⟨merged', heq', h⟩ := MapArea.mergeWith_ok (hw area (by simp)) (hw next (by simp)) hm
            rw [heq, Except.ok.injEq] at heq'
            exact heq' ▸ h
          have hwf : (∀ a ∈ area :: next :: rest, a.WF) → ∀ a ∈ merged :: rest, a.WF := fun hw =>
            List.forall_mem_cons.mpr ⟨(hmerged hw).wf, fun a ha => hw a (by simp [ha])⟩
          refine ⟨fun hw => (hi merged).wf (hwf hw), fun hw vpn view => ?_⟩
          rw [(hi merged).views (hwf hw), Views.cons, Views.cons, Views.cons,
            (hmerged hw).view_iff (MapArea.endVa_of_canMergeWith hm), or_assoc]

theorem coalesceFrom_sorted (bound : Option Nat) (hw : ∀ a ∈ area :: rest, a.WF)
    (h : Sorted (area :: rest)) :
    Sorted (MemorySet.coalesceFrom bound area rest) ∧
    ∀ va, (∀ a ∈ area :: rest, va ≤ a.startVa) →
      ∀ a ∈ MemorySet.coalesceFrom bound area rest, va ≤ a.startVa := by
  induction rest generalizing area
  case nil => exact ⟨h, fun va hv => hv⟩
  case cons next rest hi =>
    have ⟨hlt, hs⟩ := Sorted.cons.mp h
    have ⟨hwa, hwr⟩ := List.forall_mem_cons.mp hw
    have ⟨hsn, hbn⟩ := hi hwr hs
    have hskip : Sorted (area :: MemorySet.coalesceFrom bound next rest) ∧
        ∀ va, (∀ a ∈ area :: next :: rest, va ≤ a.startVa) →
          ∀ a ∈ area :: MemorySet.coalesceFrom bound next rest, va ≤ a.startVa :=
      ⟨Sorted.cons.mpr ⟨hbn _ hlt, hsn⟩, fun va hv =>
        have ⟨hv₁, hv₂⟩ := List.forall_mem_cons.mp hv
        List.forall_mem_cons.mpr ⟨hv₁, hbn va hv₂⟩⟩
    simp only [MemorySet.coalesceFrom]
    split
    case isTrue => exact ⟨h, fun va hv => hv⟩
    case isFalse =>
      split
      case isFalse => exact hskip
      case isTrue hm =>
        split
        case h_2 => exact hskip
        case h_1 merged heq =>
          have ⟨hwn, hwr⟩ := List.forall_mem_cons.mp hwr
          have ⟨hltn, hsr⟩ := Sorted.cons.mp hs
          have ⟨merged', heq', hmg⟩ := MapArea.mergeWith_ok hwa hwn hm
          rw [heq, Except.ok.injEq] at heq'
          subst heq'
          have ⟨hs', hb'⟩ := @hi merged (List.forall_mem_cons.mpr ⟨hmg.wf, hwr⟩)
            (Sorted.cons.mpr ⟨fun a ha => hmg.endVa ▸ hltn a ha, hsr⟩)
          refine ⟨hs', fun va hv => hb' va (List.forall_mem_cons.mpr ⟨?_, fun a ha => ?_⟩)⟩
          · exact hmg.startVa ▸ hv area (by simp)
          · exact hv a (by simp [ha])

-- Areas that do not overlap, in any order.
def Apart (area area' : MapArea) : Prop :=
  area.endVa ≤ area'.startVa ∨ area'.endVa ≤ area.startVa

theorem Sorted.apart (h : Sorted areas) : areas.Pairwise Apart :=
  h.imp .inl

theorem sortAreas_perm : (MemorySet.sortAreas areas).Perm areas :=
  List.perm_insertionSort ..

theorem sortAreas_sorted (hw : ∀ a ∈ areas, a.WF) (h : areas.Pairwise Apart) :
    Sorted (MemorySet.sortAreas areas) := by
  have htotal : Std.Total (fun a b : MapArea => a.startVa ≤ b.startVa) := ⟨fun a b => Nat.le_total ..⟩
  have htrans : IsTrans MapArea (fun a b => a.startVa ≤ b.startVa) := ⟨fun _ _ _ => Nat.le_trans⟩
  have hle := List.pairwise_insertionSort (fun a b : MapArea => a.startVa ≤ b.startVa) areas
  have hap := h.perm sortAreas_perm.symm fun hab => hab.symm
  refine (hle.and hap).imp_of_mem fun ha hb hab => ?_
  have := (hw _ (sortAreas_perm.mem_iff.mp ha)).start_lt_end
  have := (hw _ (sortAreas_perm.mem_iff.mp hb)).start_lt_end
  have := hab.1
  rcases hab.2 with h | h <;> omega

namespace MemorySet

theorem coalesceAreas_rearranged : Rearranged ms.areas ms.coalesceAreas.areas := by
  have hp : Rearranged ms.areas (sortAreas ms.areas) := .perm sortAreas_perm.symm
  simp only [coalesceAreas]
  split
  case h_1 heq => exact heq ▸ hp
  case h_2 area rest heq => exact (heq ▸ hp).trans (coalesceFrom_rearranged ..)

@[simp]
theorem coalesceAreas_pageTable : ms.coalesceAreas.pageTable = ms.pageTable := by
  simp only [coalesceAreas]
  split <;> rfl

theorem coalesceAreas_sorted (hw : ∀ a ∈ ms.areas, a.WF) (h : ms.areas.Pairwise Apart) :
    Sorted ms.coalesceAreas.areas := by
  have hs := sortAreas_sorted hw h
  have hw' : ∀ a ∈ sortAreas ms.areas, a.WF := fun a ha => hw a (sortAreas_perm.mem_iff.mp ha)
  simp only [coalesceAreas]
  split
  case h_1 => exact .nil
  case h_2 area rest heq => exact (coalesceFrom_sorted none (heq ▸ hw') (heq ▸ hs)).1

theorem coalesceChangedRange_rearranged {start stop : Nat} :
    Rearranged ms.areas (ms.coalesceChangedRange start stop).areas := by
  simp only [coalesceChangedRange]
  split
  case isTrue => exact .refl _
  case isFalse =>
    split
    case h_1 => exact .refl _
    case h_2 area rest heq =>
      have h := (coalesceFrom_rearranged (some stop) area rest).append_left
        (ms.areas.take (ms.firstAreaEndingAfter start - 1))
      rwa [← heq, List.take_append_drop] at h

@[simp]
theorem coalesceChangedRange_pageTable {start stop : Nat} :
    (ms.coalesceChangedRange start stop).pageTable = ms.pageTable := by
  simp only [coalesceChangedRange]
  split
  case isTrue => rfl
  case isFalse => split <;> rfl

theorem coalesceChangedRange_sorted {start stop : Nat} (hw : ∀ a ∈ ms.areas, a.WF)
    (h : Sorted ms.areas) : Sorted (ms.coalesceChangedRange start stop).areas := by
  simp only [coalesceChangedRange]
  split
  case isTrue => exact h
  case isFalse =>
    split
    case h_1 => exact h
    case h_2 area rest heq =>
      have hsplit := List.take_append_drop (ms.firstAreaEndingAfter start - 1) ms.areas
      rw [heq] at hsplit
      have ⟨hpre, hrest, hlt⟩ := Sorted.append.mp (hsplit ▸ h)
      have hwr : ∀ a ∈ area :: rest, a.WF := fun a ha => hw a (hsplit ▸ List.mem_append_right _ ha)
      have ⟨hs, hb⟩ := coalesceFrom_sorted (some stop) hwr hrest
      exact Sorted.append.mpr ⟨hpre, hs, fun a ha => hb _ (hlt a ha)⟩

theorem locate_eq_lt : locate addr area = .lt ↔ addr < area.startVa := by
  simp only [locate]
  split
  case isTrue => simp_all
  case isFalse => split <;> simp_all

theorem locate_eq_gt (h : area.WF) : locate addr area = .gt ↔ area.endVa ≤ addr := by
  have := h.start_lt_end
  simp only [locate]
  split
  case isTrue => simp only [reduceCtorEq, false_iff]; omega
  case isFalse => split <;> simp_all

theorem locate_eq_eq : locate addr area = .eq ↔ area.startVa ≤ addr ∧ addr < area.endVa := by
  simp only [locate]
  split
  case isTrue => simp only [reduceCtorEq, false_iff]; omega
  case isFalse => split <;> simp_all

-- The lookup finds an area that contains the address.
theorem areaContaining_sound (h : ms.areaContaining addr = some (i, area)) :
    ms.areas[i]? = some area ∧ area.startVa ≤ addr ∧ addr < area.endVa := by
  simp only [areaContaining, areaIndexContaining, Option.bind_eq_bind, Option.bind_eq_some_iff,
    Option.pure_def, Option.some.injEq, Prod.mk.injEq] at h
  obtain ⟨j, hf, a, ha, rfl, rfl⟩ := h
  have ⟨b, hb, he⟩ := BinarySearch.find_sound hf
  rw [ha, Option.some.injEq] at hb
  exact ⟨ha, locate_eq_eq.mp (hb ▸ he)⟩

theorem areaContaining_mem (h : ms.areaContaining addr = some (i, area)) : area ∈ ms.areas :=
  List.mem_of_getElem? (areaContaining_sound h).1

-- Without overlaps, the lookup finds every area that contains the address.
theorem areaContaining_complete (hw : ms.WF) (hm : area ∈ ms.areas)
    (ha : area.startVa ≤ addr ∧ addr < area.endVa) :
    ∃ i, ms.areaContaining addr = some (i, area) := by
  have ⟨k, hk, hget⟩ := List.getElem_of_mem hm
  have hpw : ms.areas.Pairwise fun a b =>
      (locate addr a = .lt → locate addr b = .lt) ∧ (locate addr b = .gt → locate addr a = .gt) := by
    refine hw.sorted.imp_of_mem fun {a b} hma hmb hab => ?_
    have := (hw.areas a hma).start_lt_end
    have := (hw.areas b hmb).start_lt_end
    rw [locate_eq_lt, locate_eq_lt, locate_eq_gt (hw.areas a hma), locate_eq_gt (hw.areas b hmb)]
    omega
  have hfind : (ms.areaIndexContaining addr).isSome :=
    BinarySearch.find_complete hpw (le_refl _) (le_refl _) (Nat.zero_le k) hk
      (List.getElem?_eq_some_iff.mpr ⟨hk, hget⟩) (locate_eq_eq.mpr ha)
  have ⟨j, hj⟩ := Option.isSome_iff_exists.mp hfind
  have ⟨b, hb, he⟩ := BinarySearch.find_sound hj
  have heq : b = area := hw.sorted.unique (List.mem_of_getElem? hb) hm (locate_eq_eq.mp he) ha
  exact ⟨j, by simp [areaContaining, hj, hb, heq]⟩

theorem areaContaining_eq_none (hw : ms.WF) :
    ms.areaContaining addr = none ↔ ∀ a ∈ ms.areas, ¬(a.startVa ≤ addr ∧ addr < a.endVa) := by
  constructor
  case mp =>
    intro hn a hm ha
    have ⟨i, hi⟩ := areaContaining_complete hw hm ha
    rw [hn] at hi
    cases hi
  case mpr =>
    intro h
    cases hc : ms.areaContaining addr
    case none => rfl
    case some r =>
      obtain ⟨i, a⟩ := r
      have hs := areaContaining_sound hc
      exact absurd hs.2 (h a (List.mem_of_getElem? hs.1))

-- Without overlaps, the areas that end at or before an address are the ones before the index.
theorem firstAreaEndingAfter_spec (addr : Nat) (hw : ms.WF) (ha : ms.areas[i]? = some area) :
    area.endVa ≤ addr ↔ i < ms.firstAreaEndingAfter addr := by
  have hpw : ms.areas.Pairwise fun a b => decide (b.endVa ≤ addr) → decide (a.endVa ≤ addr) := by
    refine hw.sorted.imp_of_mem fun {a b} hma hmb hab => ?_
    have := (hw.areas b hmb).start_lt_end
    simp only [decide_eq_true_eq]
    omega
  have h : decide (area.endVa ≤ addr) ↔ i < ms.firstAreaEndingAfter addr :=
    BinarySearch.partitionPoint_spec hpw (le_refl _) (Nat.zero_le _) (Nat.sub_le ..)
      (fun _ _ h => absurd h (Nat.not_lt_zero _)) (fun j b hj hb => by simp_all) i area ha
  rwa [decide_eq_true_eq] at h

-- Splitting at an address either leaves the areas as they are or replaces one of them by its parts.
theorem splitAreaAt_cases (hw : ∀ a ∈ ms.areas, a.WF) (addr : Nat) :
    (ms.splitAreaAt addr = ms ∧
      (addr % pageSize = 0 → ∀ i a, ms.areaContaining addr = some (i, a) → addr ≤ a.startVa)) ∨
    ∃ pre area post left right, ms.areas = pre ++ area :: post ∧ area.Split addr left right ∧
      left.flags = area.flags ∧ left.backing = area.backing ∧ right.flags = area.flags ∧
      right.backing = area.backing.splitRight (addr - area.startVa) ∧
      ms.splitAreaAt addr = { ms with areas := pre ++ left :: right :: post } := by
  by_cases ha : addr % pageSize = 0
  case neg => exact .inl ⟨by simp [splitAreaAt, ha], fun h => absurd h ha⟩
  case pos =>
    cases hc : ms.areaContaining addr
    case none => exact .inl ⟨by simp [splitAreaAt, hc], fun _ i a h => nomatch h⟩
    case some r =>
      obtain ⟨i, area⟩ := r
      have ⟨hget, hs, he⟩ := areaContaining_sound hc
      by_cases hlt : area.startVa < addr
      case neg =>
        have hn := MapArea.splitAt_none area addr (.inl fun h => hlt h.1)
        refine .inl ⟨by simp [splitAreaAt, ha, hc, hn], fun _ j a h => ?_⟩
        rw [Option.some.injEq, Prod.mk.injEq] at h
        exact h.2 ▸ Nat.le_of_not_lt hlt
      case pos =>
        have ⟨left, right, heq, hsp, hr⟩ :=
          MapArea.splitAt_ok (hw area (List.mem_of_getElem? hget)) hlt he ha
        refine .inr ⟨ms.areas.take i, area, ms.areas.drop (i + 1), left, right, Lists.split_at hget, hsp,
          hr.1, hr.2.1, hr.2.2.1, hr.2.2.2, ?_⟩
        simp only [splitAreaAt, ha, ne_eq, not_true_eq_false, ite_false, hc, heq,
          Lists.set_insertIdx_split hget]

@[simp]
theorem splitAreaAt_pageTable : (ms.splitAreaAt addr).pageTable = ms.pageTable := by
  simp only [splitAreaAt]
  split
  case isTrue => rfl
  case isFalse =>
    split
    case h_1 => rfl
    case h_2 => split <;> rfl

theorem splitAreaAt_rearranged : Rearranged ms.areas (ms.splitAreaAt addr).areas where
  wf hw := by
    rcases splitAreaAt_cases hw addr with ⟨he, _⟩ | ⟨pre, area, post, left, right, hs, hsp, _, _, _, _, he⟩
    case inl => rwa [he]
    case inr =>
      rw [he]
      intro a ha
      simp only [List.mem_append, List.mem_cons] at ha
      rcases ha with ha | rfl | rfl | ha
      · exact hw a (by simp [hs, ha])
      · exact hsp.left_wf
      · exact hsp.right_wf
      · exact hw a (by simp [hs, ha])
  views hw vpn view := by
    rcases splitAreaAt_cases hw addr with ⟨he, _⟩ | ⟨pre, area, post, left, right, hs, hsp, _, _, _, _, he⟩
    case inl => rw [he]
    case inr =>
      rw [he, hs]
      simp only [Views.append, Views.cons, hsp.view_iff, or_assoc]

theorem splitAreaAt_sorted (hw : ∀ a ∈ ms.areas, a.WF) (h : Sorted ms.areas) :
    Sorted (ms.splitAreaAt addr).areas := by
  rcases splitAreaAt_cases hw addr with ⟨he, _⟩ | ⟨pre, area, post, left, right, hs, hsp, _, _, _, _, he⟩
  case inl => rwa [he]
  case inr =>
    rw [he]
    have ⟨hpre, hrest, hlt⟩ := Sorted.append.mp (hs ▸ h)
    have ⟨hpost, hrest⟩ := Sorted.cons.mp hrest
    have := hsp.left_start
    have := hsp.left_end
    have := hsp.right_start
    have := hsp.right_end
    have := hsp.right_wf.start_lt_end
    refine Sorted.append.mpr ⟨hpre, Sorted.cons.mpr ⟨?_, Sorted.cons.mpr ⟨?_, hrest⟩⟩, ?_⟩
    · refine List.forall_mem_cons.mpr ⟨by omega, fun a ha => ?_⟩
      have := hpost a ha
      omega
    · exact fun a ha => hsp.right_end ▸ hpost a ha
    · intro a ha b hb
      have := hlt a ha area (by simp)
      simp only [List.mem_cons] at hb
      have := hsp.left_wf.start_lt_end
      rcases hb with rfl | rfl | hb
      · omega
      · omega
      · exact hlt a ha b (by simp [hb])

-- Afterwards, no area has the address inside of it.
theorem splitAreaAt_boundary (hw : ms.WF) (ha : addr % pageSize = 0) :
    ∀ a ∈ (ms.splitAreaAt addr).areas, a.endVa ≤ addr ∨ addr ≤ a.startVa := by
  rcases splitAreaAt_cases hw.areas addr with
    ⟨he, hc⟩ | ⟨pre, area, post, left, right, hs, hsp, _, _, _, _, he⟩
  case inl =>
    intro a hm
    by_contra hn
    have ⟨i, hi⟩ : ∃ i, ms.areaContaining addr = some (i, a) :=
      areaContaining_complete hw (he ▸ hm) (by omega)
    have := hc ha i a hi
    omega
  case inr =>
    rw [he]
    have ⟨_, hrest, hlt⟩ := Sorted.append.mp (hs ▸ hw.sorted)
    have ⟨hpost, _⟩ := Sorted.cons.mp hrest
    have := hsp.left_start
    have := hsp.left_end
    have := hsp.right_start
    have := hsp.right_end
    have := hsp.right_wf.start_lt_end
    have := hsp.left_wf.start_lt_end
    intro a hm
    simp only [List.mem_append, List.mem_cons] at hm
    rcases hm with hm | rfl | rfl | hm
    · have := hlt a hm area (by simp); omega
    · omega
    · omega
    · have := hpost a hm; omega

-- A second split keeps the boundaries.
theorem splitAreaAt_keeps_boundary (hw : ∀ a ∈ ms.areas, a.WF)
    (h : ∀ a ∈ ms.areas, a.endVa ≤ va ∨ va ≤ a.startVa) :
    ∀ a ∈ (ms.splitAreaAt addr).areas, a.endVa ≤ va ∨ va ≤ a.startVa := by
  rcases splitAreaAt_cases hw addr with ⟨he, _⟩ | ⟨pre, area, post, left, right, hs, hsp, _, _, _, _, he⟩
  case inl => rwa [he]
  case inr =>
    rw [he]
    have harea := h area (by simp [hs])
    have := hsp.left_start
    have := hsp.left_end
    have := hsp.right_start
    have := hsp.right_end
    have := hsp.right_wf.start_lt_end
    have := hsp.left_wf.start_lt_end
    intro a hm
    simp only [List.mem_append, List.mem_cons] at hm
    rcases hm with hm | rfl | rfl | hm
    · exact h a (by simp [hs, hm])
    · omega
    · omega
    · exact h a (by simp [hs, hm])

end MemorySet

end WllOs
