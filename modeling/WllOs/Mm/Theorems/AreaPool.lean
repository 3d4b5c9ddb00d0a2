import WllOs.Library.Lists
import WllOs.Mm.AreaPool
import WllOs.Mm.Theorems.MapArea

namespace WllOs

open RunMap (at?)

theorem MapArea.abstract_eq {area : MapArea} {map : AbstractArea} (hc : area.pageCount = map.pageCount)
    (hp : ∀ n, area.resident.lookup n = map.pages n) : area.abstract = map := by
  cases map
  simp only [MapArea.abstract, AbstractArea.mk.injEq]
  exact ⟨hc, funext hp⟩

namespace AreaCall

variable {area area' : MapArea} {call : AreaCall} {returned : List Ppn} {n : Nat}

-- The effect of a call on an area that is well-formed.
structure Refines (area : MapArea) (call : AreaCall) (area' : MapArea) (returned : List Ppn) : Prop where
  wf       : area'.WF
  abstract : area'.abstract = call.spec area.abstract
  frames   : (returned ++ area'.resident.intoFrames).Perm (call.given ++ area.resident.intoFrames)

theorem intoFrames_perm {set set' : ResidentSet} {pages : List ResidentPage}
    (h : set'.iter.Perm (set.iter ++ pages)) :
    set'.intoFrames.Perm (pages.map (·.frame) ++ set.intoFrames) :=
  (h.map _).trans <| by
    rw [List.map_append]
    exact List.perm_append_comm

theorem len_eq (h : area.WF) :
    area.resident.len = ((List.range area.pageCount).filterMap area.resident.lookup).length := by
  rw [← ResidentSet.iter_eq h.resident area.pageCount h.index_lt]
  exact h.resident.count_eq

theorem insert_spec {set set' : ResidentSet} {page : ResidentPage} (h : set.Inserted n [page] set') :
    set'.lookup = Function.update set.lookup n (some page) := by
  funext m
  rw [h.lookup]
  by_cases hm : m = n
  case pos => simp [hm, at?]
  case neg => rw [RunMap.at?_eq_none.mpr (by simp; omega)]; simp [hm]

theorem update_spec {set : ResidentSet} {f : ResidentPage → ResidentPage} (h : set.WF) :
    (set.update n f).lookup = Function.update set.lookup n ((set.lookup n).map f) := by
  funext m
  rw [ResidentSet.update_lookup h]
  by_cases hm : m = n <;> simp [hm]

theorem appendResident_refines {frame : Ppn} (h : area.WF)
    (ha : (appendResident frame).allowed area) :
    ∃ area' returned, (appendResident frame).run area = .ok (area', returned) ∧
    Refines area (appendResident frame) area' returned := by
  have hlt : area.resident.len < area.pageCount := by simpa [allowed] using ha
  cases hf : area.resident.lookup area.resident.len
  case none =>
    have ⟨set, he, hi⟩ := ResidentSet.insert_ok frame h.resident
      (hlt.trans h.pageCount_lt_max) hf
    have hl := insert_spec hi
    refine ⟨{ area with resident := set }, [], ?_, h.setResident hi.wf (fun m hm => ?_)
      (fun m page hm hc => ?_), ?_, intoFrames_perm hi.iter⟩
    case refine_1 => simp only [run, MapArea.appendResident, he]; rfl
    case refine_2 =>
      by_cases hm' : m = area.resident.len
      case pos => exact hm' ▸ hlt
      case neg => exact h.index_lt m (by simpa [hl, hm'] using hm)
    case refine_3 =>
      by_cases hm' : m = area.resident.len
      case pos =>
        simp only [hl, hm', Function.update_self, Option.some.injEq] at hm
        simp [← hm, ResidentPage.new] at hc
      case neg => exact h.cow_private m page (by simpa [hl, hm'] using hm) hc
    case refine_4 =>
      simp only [spec, MapArea.abstract, ← len_eq h, hf, ite_true, hl]
      rfl
  case some page =>
    have he : area.resident.insert area.resident.len frame = .ok (.error frame) :=
      ResidentSet.insert_error (by simp [hf])
    refine ⟨area, [frame], ?_, h, ?_, .refl _⟩
    case refine_1 => simp only [run, MapArea.appendResident, he]; rfl
    case refine_2 => simp [spec, MapArea.abstract, ← len_eq h, hf]

theorem insertResidentPage_refines {frame : Ppn} {state : PageState} (h : area.WF)
    (ha : (insertResidentPage n frame state).allowed area) :
    ∃ area' returned, (insertResidentPage n frame state).run area = .ok (area', returned) ∧
    Refines area (insertResidentPage n frame state) area' returned := by
  have ⟨hn, hs⟩ : n < area.pageCount ∧ state ≠ .cow := by simpa [allowed] using ha
  cases hf : area.resident.lookup n
  case none =>
    have ⟨set, he, hw, _⟩ := MapArea.insertResidentPage_ok frame state h hn hf
      fun hc => absurd hc hs
    have ⟨set', he', hi⟩ := ResidentSet.insertPageWithState_ok ⟨frame, state⟩ h.resident
      (hn.trans h.pageCount_lt_max) hf
    have hset : set' = set := by simpa [MapArea.insertResidentPage, he'] using he
    subst hset
    refine ⟨{ area with resident := set' }, [], by simp [run, he], hw, ?_, intoFrames_perm hi.iter⟩
    simp [spec, MapArea.abstract, hf, insert_spec hi, MapArea.pageCount, MapArea.size]
  case some page =>
    have he : area.resident.insertPageWithState n ⟨frame, state⟩ = .error frame :=
      ResidentSet.insertPageWithState_error _ (by simp [hf]) (hn.trans h.pageCount_lt_max)
    refine ⟨area, [frame], by simp [run, MapArea.insertResidentPage, he], h, ?_, .refl _⟩
    simp [spec, MapArea.abstract, hf]

theorem insertResidentRun_refines {frames : List Ppn} {state : PageState} (h : area.WF)
    (ha : (insertResidentRun n frames state).allowed area) :
    ∃ area' returned, (insertResidentRun n frames state).run area = .ok (area', returned) ∧
    Refines area (insertResidentRun n frames state) area' returned := by
  obtain ⟨hn, hs⟩ : n + frames.length ≤ area.pageCount ∧ state ≠ .cow := by simpa [allowed] using ha
  have hb := hn.trans h.pageCount_lt_max.le
  have hc : area.resident.collides n frames.length ↔ _ := ResidentSet.collides_iff hb
  by_cases hfree : frames = [] ∨ area.resident.collides n frames.length
  case pos =>
    have he := ResidentSet.insertRunWithState_error state hfree
    refine ⟨area, frames, by simp [run, MapArea.insertResidentRun, he], h, ?_, .refl _⟩
    rcases hfree with rfl | hfree
    case inl =>
      rw [spec, if_pos (by simp)]
      exact MapArea.abstract_eq rfl fun m => (if_neg (by simp)).symm
    case inr =>
      obtain ⟨i, h₁, h₂, hi⟩ := hc.mp hfree
      refine (if_neg fun hall => hi ?_).symm
      rw [show i = n + (i - n) by omega]
      exact hall (i - n) (by omega)
  case neg =>
    rw [not_or] at hfree
    have hnone : ∀ i, n ≤ i → i < n + frames.length → area.resident.lookup i = none := fun i h₁ h₂ =>
      by_contra fun hi => hfree.2 (hc.mpr ⟨i, h₁, h₂, hi⟩)
    obtain ⟨set, he, hw, hi⟩ := MapArea.insertResidentRun_ok state h hfree.1 hn hnone
      fun hc => absurd hc hs
    refine ⟨{ area with resident := set }, [], by simp [run, he], hw, ?_, ?_⟩
    case refine_1 =>
      have hall : ∀ i < frames.length, area.abstract.pages (n + i) = none := fun i hlt =>
        hnone (n + i) (by omega) (by omega)
      rw [spec, if_pos hall]
      refine MapArea.abstract_eq rfl fun m => ?_
      rw [hi.lookup]
      by_cases hm : n ≤ m ∧ m < n + frames.length
      case pos =>
        have : m - n < frames.length := by omega
        simp [hm, at?, this]
      case neg =>
        rw [RunMap.at?_eq_none.mpr (by simp; omega)]
        exact (if_neg hm).symm
    case refine_2 =>
      refine (intoFrames_perm hi.iter).trans ?_
      simp [given, Function.comp_def]

theorem update_refines {f : ResidentPage → ResidentPage} (h : area.WF)
    (hf : ∀ page, area.resident.lookup n = some page → (f page).state = .cow → area.backing.isPrivate) :
    { area with resident := area.resident.update n f }.WF ∧
    { area with resident := area.resident.update n f }.abstract =
      { area.abstract with
        pages := Function.update area.abstract.pages n ((area.abstract.pages n).map f) } :=
  ⟨h.update hf, by simp only [MapArea.abstract, update_spec h.resident]; rfl⟩

theorem update_frames {set : ResidentSet} {f : ResidentPage → ResidentPage} {page : ResidentPage}
    (h : set.WF) (hp : set.lookup n = some page) :
    (page.frame :: (set.update n f).intoFrames).Perm ((f page).frame :: set.intoFrames) := by
  have ⟨rest, h₁, h₂⟩ := ResidentSet.update_iter (f := f) h hp
  have h₁ : set.intoFrames.Perm (page.frame :: rest.map (·.frame)) := h₁.map _
  have h₂ : (set.update n f).intoFrames.Perm ((f page).frame :: rest.map (·.frame)) := h₂.map _
  exact (h₂.cons _).trans ((List.Perm.swap ..).trans (h₁.symm.cons _))

theorem update_none {set : ResidentSet} {f : ResidentPage → ResidentPage} (h : set.WF)
    (hn : set.lookup n = none) : set.update n f = set := by
  refine (ResidentSet.update_wf h).ext h fun m => ?_
  rw [ResidentSet.update_lookup h]
  split
  case isTrue he => simp [he, hn]
  case isFalse => rfl

theorem setAll_frames {set : ResidentSet} {state : PageState} :
    (set.updateAll fun page => { page with state }).intoFrames = set.intoFrames := by
  simp [ResidentSet.intoFrames, ResidentSet.updateAll, RunMap.vals, List.flatMap_map, List.map_flatMap,
    Function.comp_def]

theorem refines (h : area.WF) (ha : call.allowed area) :
    ∃ area' returned, call.run area = .ok (area', returned) ∧ Refines area call area' returned := by
  cases call
  case appendResident => exact appendResident_refines h ha
  case insertResidentPage => exact insertResidentPage_refines h ha
  case insertResidentRun => exact insertResidentRun_refines h ha
  case replaceResidentPage n frame =>
    cases hf : area.resident.lookup n
    case none =>
      refine ⟨area, [frame], by simp [run, MapArea.replaceResidentPage, hf], h, ?_, .refl _⟩
      simp only [spec, MapArea.abstract, hf, Option.map_none]
      rw [← hf, Function.update_eq_self]
    case some page =>
      obtain ⟨hw, hs⟩ := update_refines (n := n) (f := fun page => { page with frame }) h
        fun page hp hc => h.cow_private n page hp hc
      exact ⟨_, [page.frame], by simp [run, MapArea.replaceResidentPage, hf], hw, hs,
        update_frames h.resident hf⟩
  case setResidentState n state =>
    have hs : state ≠ .cow := by simpa [allowed] using ha
    obtain ⟨hw, hsp⟩ := update_refines (n := n) (f := fun page => { page with state }) h
      fun page _ hc => absurd hc hs
    refine ⟨_, [], rfl, hw, hsp, ?_⟩
    cases hf : area.resident.lookup n
    case none => simp [MapArea.setResidentState, update_none h.resident hf, given]
    case some page =>
      exact List.perm_cons page.frame |>.mp (update_frames (f := fun page => { page with state })
        h.resident hf)
  case setAllResidentState state =>
    have hs : state = .cow → area.backing.isPrivate := of_decide_eq_true ha
    exact ⟨_, [], rfl, h.setAllResidentState hs,
      MapArea.abstract_eq rfl fun m => ResidentSet.updateAll_lookup m, .of_eq setAll_frames⟩
  case replaceResident frames =>
    have hlen : frames.length = area.pageCount := by simpa [allowed] using ha
    obtain ⟨set, he, hw, hl, hp⟩ := MapArea.replaceResident_ok h hlen
    refine ⟨{ area with resident := set }, area.resident.intoFrames, ?_, hw,
      MapArea.abstract_eq rfl hl, ?_⟩
    case refine_1 => simp only [run, he]; rfl
    case refine_2 =>
      refine (List.perm_append_comm).trans (List.Perm.append_right _ ?_)
      have hf : set.intoFrames.Perm ((frames.map ResidentPage.new).map (·.frame)) := hp.map _
      simpa [given, Function.comp_def, ResidentPage.new] using hf
  case extractResidentRange lo up =>
    by_cases hr : lo ≤ up
    case pos =>
      obtain ⟨set, ex, he, hw, _, hl, hp⟩ := MapArea.extractResidentRange_ok h hr
      refine ⟨_, ex.intoFrames, ?_, hw, ?_, ?_⟩
      case refine_1 => simp only [run, he]; rfl
      case refine_2 => exact MapArea.abstract_eq rfl hl
      case refine_3 =>
        refine (List.perm_append_comm).trans ?_
        simpa only [given, ResidentSet.intoFrames, ResidentSet.iter, List.nil_append,
          List.map_append] using hp.map (·.frame)
    case neg =>
      refine ⟨area, [], ?_, h, ?_, .refl _⟩
      case refine_1 =>
        simp only [run, MapArea.extractResidentRange, ResidentSet.extractRange, Nat.lt_of_not_le hr,
          ite_true]
        rfl
      case refine_2 => exact MapArea.abstract_eq rfl fun m => (if_neg (by omega)).symm

end AreaCall

namespace MapArea

variable {area left right next merged : MapArea} {va : Nat}

theorem Split.abstract (h : area.WF) (hs : area.Split va left right) :
    left.abstract = area.abstract.left ((va - area.startVa) / pageSize) ∧
    right.abstract = area.abstract.right ((va - area.startVa) / pageSize) := by
  refine ⟨abstract_eq ?_ hs.left_page, abstract_eq ?_ hs.right_page⟩
  case refine_1 => simp only [pageCount, size, hs.left_start, hs.left_end, AbstractArea.left]
  case refine_2 =>
    have := hs.right_start ▸ hs.right_wf.start_aligned
    have := hs.left_start ▸ hs.left_end ▸ hs.left_wf.start_lt_end
    have := h.start_aligned
    simp only [pageCount, size, hs.right_start, hs.right_end, AbstractArea.right, MapArea.abstract,
      pageSize] at *
    omega

theorem Merged.abstract (h : area.WF) (hn : next.WF) (hm : area.Merged next merged)
    (he : area.endVa = next.startVa) : merged.abstract = area.abstract.merge next.abstract := by
  refine abstract_eq ?_ fun n => ?_
  case refine_1 =>
    have := h.pageCount_mul
    have := hn.pageCount_mul
    have := h.start_lt_end
    have := hn.start_lt_end
    simp only [AbstractArea.merge, MapArea.abstract]
    have : merged.pageCount = (next.endVa - area.startVa) / pageSize := by
      rw [pageCount, size, hm.startVa, hm.endVa]
    simp only [pageSize] at *
    omega
  case refine_2 =>
    rw [hm.page]
    by_cases hlt : n < area.pageCount
    case pos => simp [AbstractArea.merge, MapArea.abstract, hlt]
    case neg => simp [AbstractArea.merge, MapArea.abstract, hlt, Nat.le_of_not_lt hlt]

-- An area is restored when the two parts it was split into are merged.
theorem mergeWith_split (h : area.WF) (hs : area.startVa < va) (he : va < area.endVa)
    (ha : va % pageSize = 0) :
    ∃ left right, area.splitAt va = .ok (some (left, right)) ∧ left.mergeWith right = .ok area := by
  obtain ⟨left, right, heq, hsp, hlf, hlb, hrf, hrb⟩ := splitAt_ok h hs he ha
  refine ⟨left, right, heq, ?_⟩
  have hcount : left.pageCount = (va - area.startVa) / pageSize := by
    rw [pageCount, size, hsp.left_start, hsp.left_end]
  have hrc : right.pageCount = (area.endVa - va) / pageSize := by
    rw [pageCount, size, hsp.right_start, hsp.right_end]
  have hmax := h.end_le_max
  obtain ⟨set, hm, hw, hl, _⟩ := ResidentSet.mergeFromAt_ok left.pageCount hsp.left_wf.resident
    hsp.right_wf.resident hsp.left_wf.index_lt fun n hn => by
      have := hsp.right_wf.index_lt n hn
      have := hsp.left_wf.pageCount_mul
      have := hsp.right_wf.pageCount_mul
      simp only [hcount, hrc, hsp.left_start, hsp.left_end, hsp.right_start, hsp.right_end,
        pageSize] at *
      omega
  have hset : set = area.resident := hw.ext h.resident fun n => by
    rw [hl, hsp.right_page, hsp.left_page, hcount]
    by_cases hlt : (va - area.startVa) / pageSize ≤ n
    case pos => simp [hlt]
    case neg => simp [hlt, Nat.lt_of_not_le hlt]
  simp only [mergeWith, hm, hset]
  have := hsp.left_start
  have := hsp.right_end
  cases area
  cases left
  simp_all

end MapArea

namespace AreaPool

variable {pool pool' : AreaPool}

-- The areas of a pool refine the partial maps, and every frame that was handed in is either stored in
-- exactly one place or was handed back.
structure Inv (pool : AreaPool) : Prop where
  wf       : ∀ area ∈ pool.areas, area.WF
  abstract : pool.maps = pool.areas.map (·.abstract)
  frames   : (pool.returned ++ pool.frames).Perm pool.given

theorem Inv.empty : AreaPool.empty.Inv where
  wf       := by simp [AreaPool.empty]
  abstract := rfl
  frames   := .refl _

theorem Inv.map_of {i : Nat} {area : MapArea} (h : pool.Inv) (ha : pool.areas[i]? = some area) :
    pool.maps[i]? = some area.abstract := by
  simp [h.abstract, ha]

theorem frames_set {i : Nat} {area : MapArea} (area' : MapArea) (ha : pool.areas[i]? = some area) :
    (area.resident.intoFrames ++ (pool.areas.set i area').flatMap (·.resident.intoFrames)).Perm
      (area'.resident.intoFrames ++ pool.frames) :=
  Lists.set_flatMap_perm (f := fun area => area.resident.intoFrames) ha

-- The frames of a pool when an area was exchanged for another one.
theorem frames_perm {i : Nat} {area area' : MapArea} {given returned : List Ppn}
    (ha : pool.areas[i]? = some area) (h : (pool.returned ++ pool.frames).Perm pool.given)
    (hf : (returned ++ area'.resident.intoFrames).Perm (given ++ area.resident.intoFrames)) :
    (pool.returned ++ returned ++ (pool.areas.set i area').flatMap (·.resident.intoFrames)).Perm
      (pool.given ++ given) := by
  have hs := frames_set area' ha
  simp only [List.perm_iff_count, List.count_append] at *
  intro f
  have := h f
  have := hf f
  have := hs f
  omega

theorem Inv.call (h : pool.Inv) (call : PoolCall) : ∃ pool', pool.call call = .ok pool' ∧ pool'.Inv := by
  cases call
  case withBacking startVa endVa flags backing =>
    by_cases hc : startVa % pageSize = 0 ∧ endVa % pageSize = 0 ∧ startVa < endVa ∧ endVa ≤ Usize.max
    case neg => exact ⟨pool, by simp [AreaPool.call, hc], h⟩
    case pos =>
      refine ⟨_, by simp only [AreaPool.call, hc, and_self, ite_true]; rfl, ?_, ?_, ?_⟩
      case refine_1 =>
        intro area hm
        cases List.mem_append.mp hm
        case inl hm => exact h.wf area hm
        case inr hm =>
          rw [List.mem_singleton.mp hm]
          exact .withBacking hc.1 hc.2.1 hc.2.2.1 hc.2.2.2
      case refine_2 =>
        have habs : (MapArea.withBacking startVa endVa flags backing).abstract =
            .empty ((endVa - startVa) / pageSize) := MapArea.abstract_eq rfl fun _ => rfl
        rw [List.map_append, List.map_singleton, habs, h.abstract]
      case refine_3 =>
        have : (MapArea.withBacking startVa endVa flags backing).resident.intoFrames = [] := rfl
        simpa [AreaPool.frames, this] using h.frames
  case area i call =>
    cases ha : pool.areas[i]?
    case none => exact ⟨pool, by simp [AreaPool.call, ha], h⟩
    case some area =>
      by_cases hg : call.allowed area
      case neg => exact ⟨pool, by simp [AreaPool.call, ha, hg], h⟩
      case pos =>
        obtain ⟨area', ret, he, hr⟩ := AreaCall.refines (h.wf area (List.mem_of_getElem? ha)) hg
        refine ⟨_, by simp only [AreaPool.call, ha, hg, ite_true, he]; rfl, ?_, ?_, ?_⟩
        case refine_1 => exact Lists.forall_mem_set h.wf hr.wf
        case refine_2 =>
          have hm := h.map_of ha
          rw [Lists.map_set_of hr.abstract, h.abstract]
          rw [h.abstract] at hm
          rw [List.modify_eq_set_getElem?, hm]
          rfl
        case refine_3 => exact frames_perm ha h.frames hr.frames
  case cloneResidentFrom i j =>
    cases ha : pool.areas[i]?
    case none => exact ⟨pool, by simp [AreaPool.call, ha], h⟩
    case some area =>
      cases hb : pool.areas[j]?
      case none => exact ⟨pool, by simp [AreaPool.call, ha, hb], h⟩
      case some source =>
        by_cases hc : area.startVa = source.startVa ∧ area.endVa = source.endVa ∧
          area.backing = source.backing
        case neg => exact ⟨pool, by simp [AreaPool.call, ha, hb, hc], h⟩
        case pos =>
          have hw := h.wf area (List.mem_of_getElem? ha)
          have hw' := h.wf source (List.mem_of_getElem? hb)
          have hcount : area.pageCount = source.pageCount := by
            simp [MapArea.pageCount, MapArea.size, hc]
          refine ⟨_, by simp only [AreaPool.call, ha, hb, hc, and_self, ite_true]; rfl, ?_, ?_, ?_⟩
          case refine_1 =>
            refine Lists.forall_mem_set h.wf (hw.setResident hw'.resident (fun n hn => ?_) ?_)
            · exact hcount ▸ hw'.index_lt n hn
            · exact hc.2.2 ▸ hw'.cow_private
          case refine_2 =>
            have habs : (area.cloneResidentFrom source).abstract = source.abstract :=
              MapArea.abstract_eq hcount fun _ => rfl
            rw [Lists.map_set_of habs, h.abstract]
          case refine_3 => exact frames_perm ha h.frames (List.perm_append_comm)
  case splitAt i va =>
    cases ha : pool.areas[i]?
    case none => exact ⟨pool, by simp [AreaPool.call, ha], h⟩
    case some area =>
      have hw := h.wf area (List.mem_of_getElem? ha)
      have hm := h.map_of ha
      by_cases hc : (area.startVa < va ∧ va < area.endVa) ∧ va % pageSize = 0
      case neg =>
        have he := MapArea.splitAt_none area va (by tauto)
        exact ⟨pool, by simp only [AreaPool.call, ha, hm, he]; rfl, h⟩
      case pos =>
        obtain ⟨left, right, he, hs, _⟩ := MapArea.splitAt_ok hw hc.1.1 hc.1.2 hc.2
        obtain ⟨hl, hr⟩ := hs.abstract hw
        refine ⟨_, by simp only [AreaPool.call, ha, hm, he]; rfl, ?_, ?_, ?_⟩
        case refine_1 =>
          intro a hmem
          cases List.mem_append.mp hmem
          case inl hmem => exact Lists.forall_mem_set h.wf hs.left_wf a hmem
          case inr hmem => exact List.mem_singleton.mp hmem ▸ hs.right_wf
        case refine_2 =>
          rw [List.map_append, Lists.map_set_of hl, h.abstract, ← hr]
          rfl
        case refine_3 =>
          have h₁ := h.frames
          have h₂ := frames_set left ha
          have h₃ : (left.resident.intoFrames ++ right.resident.intoFrames).Perm
              area.resident.intoFrames := by
            simpa only [ResidentSet.intoFrames, ResidentSet.iter, List.map_append] using
              hs.pages.map (·.frame)
          simp only [AreaPool.frames, List.flatMap_append, List.flatMap_cons, List.flatMap_nil,
            List.append_nil]
          simp only [List.perm_iff_count, List.count_append, AreaPool.frames] at *
          intro f
          have := h₁ f
          have := h₂ f
          have := h₃ f
          omega
  case mergeWith i j =>
    cases ha : pool.areas[i]?
    case none => exact ⟨pool, by simp [AreaPool.call, ha], h⟩
    case some area =>
      cases hb : pool.areas[j]?
      case none => exact ⟨pool, by simp [AreaPool.call, ha, hb], h⟩
      case some next =>
        have hm := h.map_of ha
        have hm' := h.map_of hb
        by_cases hc : i ≠ j ∧ area.canMergeWith next
        case neg => exact ⟨pool, by simp only [AreaPool.call, ha, hb, hm, hm', hc, ite_false], h⟩
        case pos =>
          have hw := h.wf area (List.mem_of_getElem? ha)
          have hw' := h.wf next (List.mem_of_getElem? hb)
          obtain ⟨merged, he, hmg⟩ := MapArea.mergeWith_ok hw hw' hc.2
          have hend : area.endVa = next.startVa := by
            have := hc.2
            simp only [MapArea.canMergeWith, Bool.and_eq_true, decide_eq_true_eq] at this
            exact this.1.1
          have habs := hmg.abstract hw hw' hend
          refine ⟨_, by simp only [AreaPool.call, ha, hb, hm, hm', if_pos hc, he]; rfl, ?_, ?_, ?_⟩
          case refine_1 =>
            exact fun a hmem => Lists.forall_mem_set h.wf hmg.wf a (List.mem_of_mem_eraseIdx hmem)
          case refine_2 => rw [← List.eraseIdx_map, Lists.map_set_of habs, h.abstract]
          case refine_3 =>
            have h₁ := h.frames
            have h₂ := frames_set merged ha
            have h₃ := AreaCall.intoFrames_perm hmg.pages
            have h₄ : (next.resident.intoFrames ++ ((pool.areas.set i merged).eraseIdx j).flatMap
                (·.resident.intoFrames)).Perm _ :=
              Lists.eraseIdx_flatMap_perm (f := fun area => area.resident.intoFrames)
                (show (pool.areas.set i merged)[j]? = some next by
                  rw [List.getElem?_set_ne hc.1, hb])
            have h₅ : next.resident.iter.map (·.frame) = next.resident.intoFrames := rfl
            simp only [List.perm_iff_count, List.count_append, AreaPool.frames, h₅] at *
            intro f
            have := h₁ f
            have := h₂ f
            have := h₃ f
            have := h₄ f
            omega
  case drop i =>
    cases ha : pool.areas[i]?
    case none => exact ⟨pool, by simp [AreaPool.call, ha], h⟩
    case some area =>
      refine ⟨_, by simp only [AreaPool.call, ha]; rfl, ?_, ?_, ?_⟩
      case refine_1 => exact fun a hmem => h.wf a (List.mem_of_mem_eraseIdx hmem)
      case refine_2 => rw [← List.eraseIdx_map, h.abstract]
      case refine_3 =>
        have h₁ := h.frames
        have h₂ := Lists.eraseIdx_flatMap_perm (f := fun area => area.resident.intoFrames) ha
        simp only [List.perm_iff_count, List.count_append, AreaPool.frames] at *
        intro f
        have := h₁ f
        have := h₂ f
        omega

theorem Inv.run (calls : List PoolCall) (h : pool.Inv) : ∃ pool', run calls pool = .ok pool' ∧ pool'.Inv := by
  induction calls generalizing pool
  case nil => exact ⟨pool, rfl, h⟩
  case cons call calls hi =>
    have ⟨pool', he, h'⟩ := h.call call
    have ⟨pool'', he', h''⟩ := hi h'
    exact ⟨pool'', by simp only [AreaPool.run, he]; exact he', h''⟩

-- No sequence of calls reaches an `unreachable!` arm. The resident set of every area refines the
-- partial map that the calls build, and the frames that were handed in are the ones that the areas
-- own or that were handed back.
theorem resident_sets_refine_maps (calls : List PoolCall) :
    ∃ pool, run calls .empty = .ok pool ∧
    (∀ area ∈ pool.areas, RunMap.Canonical area.resident.runs ∧
      area.resident.len = (area.resident.runs.map (·.2.length)).sum) ∧
    pool.areas.length = pool.maps.length ∧
    (∀ (i : Nat) (area : MapArea) (map : AbstractArea),
      pool.areas[i]? = some area → pool.maps[i]? = some map →
      (∀ n, area.resident.lookup n = map.pages n) ∧
      area.resident.iter = (List.range map.pageCount).filterMap map.pages ∧
      ∀ lo up, area.resident.iterRange lo up =
        (List.range' lo (up - lo)).filterMap fun n => (map.pages n).map (n, ·)) ∧
    (pool.returned ++ pool.frames).Perm pool.given ∧
    ∀ area ∈ pool.areas, ∀ va, area.startVa < va → va < area.endVa → va % pageSize = 0 →
      ∃ left right, area.splitAt va = .ok (some (left, right)) ∧ left.mergeWith right = .ok area := by
  have ⟨pool, he, h⟩ := Inv.empty.run calls
  refine ⟨pool, he, fun area hm => ⟨(h.wf area hm).resident.canonical, ?_⟩, ?_, ?_, h.frames, ?_⟩
  case refine_1 =>
    rw [ResidentSet.len, (h.wf area hm).resident.count_eq, RunMap.vals, List.length_flatMap]
  case refine_2 => rw [h.abstract, List.length_map]
  case refine_3 =>
    intro i area map ha hm
    have hw := h.wf area (List.mem_of_getElem? ha)
    rw [h.map_of ha, Option.some.injEq] at hm
    subst hm
    exact ⟨fun _ => rfl, ResidentSet.iter_eq hw.resident _ hw.index_lt,
      ResidentSet.iterRange_eq hw.resident⟩
  case refine_4 => exact fun area hm va hs he ha => MapArea.mergeWith_split (h.wf area hm) hs he ha

end AreaPool

end WllOs
