import WllOs.Mm.Theorems.Coherence

namespace WllOs

variable {ms ms' : MemorySet} {area : MapArea} {env : Env} {frames frames' : Frames} {frame : Ppn}
variable {resident : ResidentSet} {i n vpn addr : Nat} {page : ResidentPage} {data : Page} {error : SysErrNo}

namespace MemorySet

theorem vpn_eq_index (hw : area.WF) (hc : ms.areaContaining (vpn * pageSize) = some (i, area)) :
    vpn = area.startVa / pageSize + area.indexOf vpn ∧ area.indexOf vpn < area.pageCount ∧
    vpn * pageSize - area.startVa = area.indexOf vpn * pageSize := by
  have ⟨_, hs, he⟩ := areaContaining_sound hc
  have := hw.start_aligned
  have := hw.end_aligned
  simp only [MapArea.indexOf, MapArea.pageCount, MapArea.size, pageSize] at *
  omega

-- A page that becomes private gets its entry anew, and the other pages of the area stay.
structure Privatized (ms ms' : MemorySet) (i : Nat) (area : MapArea) (vpn : Nat) (frame : Ppn) : Prop where
  page      : ∃ resident, ms'.areas = ms.areas.set i { area with resident } ∧
                resident.lookup (area.indexOf vpn) = some ⟨frame, .priv⟩ ∧
                ∀ m ≠ area.indexOf vpn, resident.lookup m = area.resident.lookup m
  pageTable : ∀ vpn', ms'.pageTable vpn' =
                if vpn' = vpn then pteOf area.flags ⟨frame, .priv⟩ else ms.pageTable vpn'

theorem publishPrivatePage_privatized {area' : MapArea} (ms : MemorySet)
    (hw : area.WF) (hc : ms.areaContaining (vpn * pageSize) = some (i, area))
    (hl : area.flags.hasLeafPermission) (hw' : { area with resident }.WF)
    (hp : resident.lookup (area.indexOf vpn) = some ⟨frame, .priv⟩)
    (hr : ∀ m ≠ area.indexOf vpn, resident.lookup m = area.resident.lookup m)
    (ha : area'.setResidentState (area.indexOf vpn) .priv = { area with resident }) :
    Privatized ms (ms.publishPrivatePage i area' (area.indexOf vpn) (vpn * pageSize)) i area vpn frame := by
  have ⟨hv, _⟩ := vpn_eq_index hw hc
  have hv' : vpn * pageSize / pageSize = area.startVa / pageSize + area.indexOf vpn := by
    rw [Nat.mul_div_cancel _ pageSize_pos]
    exact hv
  refine ⟨⟨resident, by simp [publishPrivatePage, setAndMapPage, ha], hp, hr⟩, fun vpn' => ?_⟩
  rw [publishPrivatePage_apply ms i vpn' hl hw' hv' hp ha, ← hv]

theorem meaning_set {area' : MapArea} (hi : ms.areas[i]? = some area) (ha : ms'.areas = ms.areas.set i area')
    (hv : area'.view vpn = area.view vpn) : ms'.meaning vpn = ms.meaning vpn := by
  simp only [meaning, ha, Lists.set_split hi]
  conv => rhs; rw [Lists.split_at hi]
  simp only [List.findSome?_append, List.findSome?_cons, hv]

theorem Privatized.elsewhere {vpn' : Nat} (h : Privatized ms ms' i area vpn frame) (hw : area.WF)
    (hc : ms.areaContaining (vpn * pageSize) = some (i, area)) (hne : vpn' ≠ vpn) :
    ms'.meaning vpn' = ms.meaning vpn' ∧ ms'.pageTable vpn' = ms.pageTable vpn' := by
  obtain ⟨resident, ha, _, hr⟩ := h.page
  refine ⟨meaning_set (areaContaining_sound hc).1 ha ?_, by simp [h.pageTable, hne]⟩
  simp only [MapArea.view]
  split
  case isFalse => rfl
  case isTrue hb =>
    obtain ⟨hv, _⟩ := vpn_eq_index hw hc
    have hindex : (vpn' * pageSize - area.startVa) / pageSize ≠ area.indexOf vpn := fun he => by
      have := hw.start_aligned
      simp only [pageSize] at *
      omega
    rw [hr _ hindex]

theorem isCow_of_resolveCowPage (hc : ms.areaContaining addr = some (i, area))
    (h : resolveCowPage env ms frames addr = .ok (ms', frames')) : area.isCow := by
  simp only [resolveCowPage, hc] at h
  split at h
  case isTrue => cases h
  case isFalse hflags => simpa [MapArea.isCow] using hflags

-- The resolution takes the next frame and fills it with what the page held, whoever owns its old frame.
theorem resolveCowPage_spec (hw : area.WF) (hc : ms.areaContaining (vpn * pageSize) = some (i, area))
    (hcow : area.isCow) (hrc : ∀ frame, 0 < env.refCount frame)
    (h : resolveCowPage env ms frames (vpn * pageSize) = .ok (ms', frames')) :
    ∃ frame rest, frames.supply = frame :: rest ∧ frames'.supply = rest ∧ Privatized ms ms' i area vpn frame ∧
    ∃ data, area.contents env (Function.update frames.mem frame .zero) (area.indexOf vpn) = .ok data ∧
      frames'.mem = Function.update (Function.update frames.mem frame .zero) frame data := by
  obtain ⟨hv, hn, hoff⟩ := vpn_eq_index hw hc
  simp only [MapArea.isCow, Bool.and_eq_true] at hcow
  obtain ⟨⟨hprivate, hflag⟩, hwrite⟩ := hcow
  have hl : area.flags.hasLeafPermission := by simp [PTEFlags.hasLeafPermission, hwrite]
  simp only [resolveCowPage, hc, hprivate, hflag, hwrite, Bool.not_true, Bool.or_self, Bool.false_eq_true,
    if_false] at h
  split at h
  case h_1 source hsource =>
    rw [if_pos (by have := hrc source.frame; omega)] at h
    split at h
    case h_1 => cases h
    case h_2 frame frames₁ halloc =>
      obtain ⟨hs, hm⟩ := Frames.allocFrame_eq_some halloc
      simp only [MapArea.replaceResidentPage, hsource] at h
      cases h
      have hlookup : ∀ m, ((area.resident.update (area.indexOf vpn) fun page => { page with frame }).update
          (area.indexOf vpn) fun page => { page with state := .priv }).lookup m =
          if m = area.indexOf vpn then some ⟨frame, .priv⟩ else area.resident.lookup m := fun m => by
        rw [update_update_lookup hw.resident]
        split
        case isTrue he => rw [he, MapArea.indexOf, hsource]; rfl
        case isFalse => rfl
      have hw₁ := hw.update (n := area.indexOf vpn) (f := fun page => { page with frame })
        fun page _ _ => hprivate
      have hw₂ := hw₁.update (n := area.indexOf vpn) (f := fun page => { page with state := .priv })
        fun page _ hc => by cases hc
      exact ⟨frame, frames₁.supply, hs, rfl,
        publishPrivatePage_privatized ms hw hc hl hw₂ (by simp [hlookup]) (fun m hm => by simp [hlookup, hm]) rfl,
        frames₁.mem source.frame, by simp [MapArea.contents, MapArea.indexOf, hsource, hm], by simp [Frames.copy, hm]⟩
  case h_2 hnone =>
    split at h
    case h_1 => cases h
    case h_2 frame frames₁ halloc =>
      obtain ⟨hs, hm⟩ := Frames.allocFrame_eq_some halloc
      split at h
      case h_1 => cases h
      case h_2 data hdata =>
        obtain ⟨resident, hins, hw₁, hres⟩ := MapArea.insertResidentPage_ok frame .priv hw hn hnone fun hc => by cases hc
        rw [MapArea.indexOf] at hins
        rw [hins] at h
        cases h
        have hlookup : ∀ m, (resident.update (area.indexOf vpn) fun page => { page with state := .priv }).lookup m =
            if m = area.indexOf vpn then some ⟨frame, .priv⟩ else area.resident.lookup m := fun m => by
          rw [ResidentSet.update_lookup hw₁.resident, hres]
          by_cases hm : m = area.indexOf vpn <;> simp [hm]
        have hw₂ := hw₁.update (n := area.indexOf vpn) (f := fun page => { page with state := .priv })
          fun page _ hc => by cases hc
        refine ⟨frame, frames₁.supply, hs, rfl,
          publishPrivatePage_privatized ms hw hc hl hw₂ (by simp [hlookup]) (fun m hm => by simp [hlookup, hm]) rfl,
          data, ?_, by simp [Frames.write, hm]⟩
        simp only [MapArea.contents, MapArea.indexOf, hnone]
        rw [hoff] at hdata
        exact hdata

end MemorySet

theorem MemorySet.Resolution.areas {cached : Ppn → Prop} {grant : Bool → Ppn → Prop}
    (hr : Resolution cached grant ms frames ms' frames') (h : ∀ a ∈ ms.areas, a.WF) : ∀ a ∈ ms'.areas, a.WF :=
  have ⟨_, hstep⟩ := hr.step
  hstep.wf h

namespace World

variable {w : World} {op : World.Op} {k : Nat} {supply : List Ppn}

-- Areas stay well-formed even where insertions make them overlap.
theorem stepSpace_areas (h : ∀ a ∈ ms.areas, a.WF) (hv : op.Valid w) (hp : op.process = some k) :
    ∀ ms' ∈ (w.stepSpace k ms op).spaces, ms' ∈ w.spaces ∨ ∀ a ∈ ms'.areas, a.WF := by
  have hwf : ∀ ms₁ mem, (∀ a ∈ ms₁.areas, a.WF) → ∀ ms' ∈ (w.setSpace k ms₁ mem).spaces,
      ms' ∈ w.spaces ∨ ∀ a ∈ ms'.areas, a.WF := fun ms₁ mem hw ms' hm =>
    (mem_setSpace hm).imp_right fun (he : ms' = ms₁) => he ▸ hw
  have hset : ∀ ms₁ mem, AnyStep (fun _ => True) ms ms₁ → ∀ ms' ∈ (w.setSpace k ms₁ mem).spaces,
      ms' ∈ w.spaces ∨ ∀ a ∈ ms'.areas, a.WF := fun ms₁ mem hstep => hwf ms₁ mem (hstep.wf h)
  have hsame : ∀ ms' ∈ w.spaces, ms' ∈ w.spaces ∨ ∀ a ∈ ms'.areas, a.WF := fun ms' => .inl
  cases op <;> cases hp
  case insertLazyArea =>
    simp only [stepSpace]
    split
    case h_1 ms₁ he => exact hset ms₁ _ (MemorySet.insertLazyAreaWithBacking_step hv.1 he)
    case h_2 => exact hsame
  case insertFramedArea supply startVa endVa permission backing =>
    obtain ⟨_, hu, hc⟩ := hv
    exact hset _ _ (MemorySet.insertFramedAreaWithBacking_step ⟨w.mem, supply⟩ startVa endVa hu hc
      fun _ _ => trivial)
  case insertSharedArea =>
    obtain ⟨hu, hc, _⟩ := hv
    simp only [stepSpace]
    split
    case h_1 ms₁ he => exact hset ms₁ _ (MemorySet.insertSharedFramedArea_step hu hc (fun _ _ => trivial) he)
    case h_2 => exact hsame
  case handlePageFault =>
    simp only [stepSpace]
    split
    case h_1 ms₁ frames he =>
      have hr : MemorySet.Resolution (· ∈ w.cleanCache) (fun _ _ => False) ms ⟨w.mem, _⟩ ms₁ frames :=
        MemorySet.handlePageFault_resolution h hv.2 he
      exact hwf ms₁ _ (hr.areas h)
    case h_2 => exact hsame
  case prepareWrite env supply dst len =>
    refine hwf _ _ (MemorySet.prepareWriteFrom_induction (P := fun ms _ => ∀ a ∈ ms.areas, a.WF)
      (fun _ _ => False) (w.env env) dst len len 0 hv.2 (fun _ _ h => h) ?_ h)
    exact fun _ _ _ _ h hr => hr.areas h
  case protectRange =>
    simp only [stepSpace]
    split
    case h_1 ms₁ he =>
      exact hset ms₁ _ (MemorySet.protectRange_step hv.1 he fun _ _ _ _ _ _ _ _ => trivial)
    case h_2 => exact hsame
  case unmapRange =>
    simp only [stepSpace]
    split
    case h_1 ms₁ he => exact hset ms₁ _ (MemorySet.unmapRange_step he)
    case h_2 => exact hsame
  case discardAnonymousRange =>
    simp only [stepSpace]
    split
    case h_1 ms₁ _ he => exact hset ms₁ _ (MemorySet.discardAnonymousRange_step he)
    case h_2 => exact hsame
  case forkCow supply =>
    have hparent : AnyStep (fun _ => True) ms (ms.forkCow ⟨w.mem, supply⟩).1 :=
      MemorySet.forkCow_step ⟨w.mem, supply⟩ h
    have hchild := (MemorySet.forkCow_spec ⟨w.mem, supply⟩ h).child
    simp only [stepSpace]
    split
    case h_1 ms₁ frames child he =>
      rw [he] at hparent hchild
      intro ms' hm
      rcases List.mem_append.mp hm with hm | hm
      case inl => exact hset ms₁ frames.mem hparent ms' hm
      case inr =>
        obtain ⟨new, hnew, hforall, _⟩ := hchild child rfl
        refine .inr (List.mem_singleton.mp hm ▸ hnew ▸ MemorySet.coalesceAreas_rearranged.wf fun a ha => ?_)
        obtain ⟨_, _, h⟩ := Lists.exists_of_mem_right hforall ha
        exact h.wf
    case h_2 ms₁ frames error he =>
      rw [he] at hparent
      exact hset ms₁ _ hparent
  case releaseUserAreas => exact hset _ _ MemorySet.releaseUserAreas_step
  case store =>
    simp only [stepSpace, World.store]
    split
    case h_1 => exact hsame
    case h_2 => split <;> exact hsame

theorem step_areas (h : ∀ ms ∈ w.spaces, ∀ a ∈ ms.areas, a.WF) (hv : op.Valid w) :
    ∀ ms ∈ (w.step op).spaces, ∀ a ∈ ms.areas, a.WF := by
  cases hp : op.process
  case some k =>
    rw [step_process hp]
    cases hk : w.spaces[k]?
    case none => exact h
    case some ms =>
      intro ms' hm
      exact (stepSpace_areas (h ms (List.mem_of_getElem? hk)) hv hp ms' hm).elim (h ms') id
  case none =>
    cases op
    case newBare =>
      intro ms hm
      rcases List.mem_append.mp hm with hm | hm
      case inl => exact h ms hm
      case inr => exact List.mem_singleton.mp hm ▸ MemorySet.Coherent.newBare.areas
    case cacheFrame | evictFrame | createSegment | dropSegment => exact h
    all_goals cases hp

theorem Reachable.areas {condition : World → Op → Prop} (h : Reachable condition w) :
    ∀ ms ∈ w.spaces, ∀ a ∈ ms.areas, a.WF := by
  induction h
  case init => exact nofun
  case step hv _ hi => exact step_areas hi hv

theorem refCount_pos (w : World) (frame : Ppn) : 0 < w.refCount frame :=
  Nat.le_max_left ..

-- Frames without an owner may be handed out.
theorem Fresh.of_owners {condition : World → Op → Prop} (h : Reachable condition w) (hs : supply.Nodup)
    (hfree : ∀ frame ∈ supply, frame ∉ w.cleanCache ∧ frame ∉ w.segments ∧ ∀ ms ∈ w.spaces, ms.owners frame = 0) :
    w.Fresh supply := by
  refine ⟨hs, fun frame hm ho => ?_⟩
  have ⟨hcache, hsegments, hspaces⟩ := hfree frame hm
  rcases ho with ho | ho | ⟨ms, hms, area, ha, n, page, hp, he⟩
  · exact hcache ho
  · exact hsegments ho
  · have hiter := (h.areas ms hms area ha).resident.mem_iter.mpr ⟨n, hp⟩
    have hcount := List.countP_eq_zero.mp (hspaces ms hms) page (List.mem_flatMap.mpr ⟨area, ha, hiter⟩)
    simp [he] at hcount

-- A frame that the allocator has just handed out belongs to the page it was taken for.
theorem MadePrivate.of_privatized {rest : List Ppn} (hk : w.spaces[k]? = some ms)
    (hf : w.Fresh (frame :: rest)) (hw : area.WF)
    (hc : ms.areaContaining (vpn * pageSize) = some (i, area)) (hcow : area.isCow)
    (hp : ms.Privatized ms' i area vpn frame)
    (hd : area.contents (w.env env) (Function.update w.mem frame .zero) (area.indexOf vpn) = .ok data) :
    w.MadePrivate k ms env vpn i area (area.indexOf vpn) ms'
      (Function.update (Function.update w.mem frame .zero) frame data) frame := by
  have hfree : ¬w.Owned frame := hf.2 frame (by simp)
  have hother : ∀ frame', w.Owned frame' → frame' ≠ frame := fun frame' ho he => hfree (he ▸ ho)
  simp only [MapArea.isCow, Bool.and_eq_true] at hcow
  exact {
    page := hp.page
    bytes := by
      rw [Function.update_self, ← hd]
      simp only [MapArea.contents]
      split
      case h_1 source hsource =>
        have howned : w.Owned source.frame :=
          .inr (.inr ⟨ms, List.mem_of_getElem? hk, area, MemorySet.areaContaining_mem hc, _, source, hsource, rfl⟩)
        rw [Function.update_of_ne (hother _ howned)]
      case h_2 => rfl
    sole := by
      refine ⟨⟨fun hm => hfree (.inl hm), fun j ms'' hj hne isPrivate flags page ho he => ?_⟩,
        fun hm => hfree (.inr (.inl hm))⟩
      rcases setSpace_cases hk hj with ⟨rfl, _⟩ | ⟨_, hj⟩
      · exact hne rfl
      · exact hother _ (owned_of_owns hj ho) he
    mapped := by
      have hpte : pteOf area.flags ⟨frame, .priv⟩ = some ⟨frame, .ofPTEFlags area.flags⟩ := by
        simp [pteOf_eq, MappingFlags.isEmpty, MappingFlags.ofPTEFlags, hcow.2]
      exact ⟨⟨frame, .ofPTEFlags area.flags⟩, by simp [hp.pageTable, hpte], rfl, hcow.2⟩
    elsewhere := fun vpn' hne => hp.elsewhere hw hc hne
    others := fun frame' ho => by
      rw [Function.update_of_ne (hother _ ho), Function.update_of_ne (hother _ ho)]
  }

-- The child exits, so that the parent is the only owner of the page. It gets a new frame nevertheless.
def abandoned : World :=
  (forked readWrite .store).step (.releaseUserAreas 1)

end World

end WllOs
