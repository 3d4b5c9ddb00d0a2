import WllOs.Mm.Theorems.RangeOps

namespace WllOs

variable {areas : List MapArea} {area area' : MapArea} {pageTable pageTable' : PageTable}
variable {vpn n start stop startVa endVa pages : Nat} {page : ResidentPage} {pte : Pte} {flags permission : PTEFlags}
variable {ms ms' : MemorySet} {frames frames' : Frames} {backing : MapAreaBacking} {frame : Ppn}
variable {fresh : Bool → Ppn → Prop} {cached : Ppn → Prop} {grant : Bool → Ppn → Prop}

theorem pteOf_eq (h : page.state ≠ .cow) :
    pteOf flags page = if (MappingFlags.ofPTEFlags flags).isEmpty then none
      else some ⟨page.frame, .ofPTEFlags flags⟩ := by
  simp [pteOf, effectiveMappingFlagsForPage, h]

theorem pteOf_new (h : ¬permission.cow) (pageTable : PageTable) :
    pageTable.mapPage n frame (effectiveMappingFlags permission) =
    Function.update pageTable n (pteOf permission (.new frame)) := by
  simp [PageTable.mapPage, pteOf, effectiveMappingFlags, effectiveMappingFlagsForPage, h, ResidentPage.new]

namespace Frames

theorem allocFrame_eq_some (h : frames.allocFrame = some (frame, frames')) :
    frames.supply = frame :: frames'.supply ∧ frames'.mem = Function.update frames.mem frame .zero := by
  simp only [allocFrame] at h
  split at h
  case h_1 => cases h
  case h_2 hs => cases h; exact ⟨hs, rfl⟩

end Frames

namespace MemorySet

-- What the loop of `insert_framed_area_with_backing` keeps: the first `n` pages of the area are
-- resident with frames from the supply, and the page table has the entries for them on top of the
-- entries from before.
structure Filled (supply : List Ppn) (pageTable₀ : PageTable) (area₀ : MapArea) (n : Nat)
    (pageTable : PageTable) (area : MapArea) : Prop where
  wf       : area.WF
  startVa  : area.startVa = area₀.startVa
  endVa    : area.endVa = area₀.endVa
  flags    : area.flags = area₀.flags
  backing  : area.backing = area₀.backing
  len      : area.resident.len = n
  free     : ∀ i, n ≤ i → area.resident.lookup i = none
  pages    : ∀ i page, area.resident.lookup i = some page → page.frame ∈ supply ∧ page.state = .priv
  entries  : ∀ vpn, pageTable vpn = (area.pageAt vpn).elim (pageTable₀ vpn) (pteOf area.flags)

theorem Filled.append {supply : List Ppn} {pageTable₀ : PageTable} {area₀ : MapArea}
    (h : Filled supply pageTable₀ area₀ n pageTable area) (hn : n < area.pageCount)
    (hf : frame ∈ supply) (hc : ¬area.flags.cow) :
    ∃ area', area.appendResident frame = .ok (.ok area') ∧
    Filled supply pageTable₀ area₀ (n + 1)
      (pageTable.mapPage (area.startVa / pageSize + n) frame (effectiveMappingFlags area.flags)) area' := by
  have ⟨resident, he, hw, hlen, hl⟩ := MapArea.appendResident_ok frame h.wf h.free h.len hn
  refine ⟨_, he, ⟨hw, h.startVa, h.endVa, h.flags, h.backing, hlen, fun i hi => ?_, fun i page hp => ?_,
    fun vpn => ?_⟩⟩
  case refine_1 =>
    rw [hl, if_neg (by omega)]
    exact h.free i (by omega)
  case refine_2 =>
    rw [hl] at hp
    split at hp
    case isTrue => cases hp; exact ⟨hf, rfl⟩
    case isFalse => exact h.pages i page hp
  case refine_3 =>
    rw [pteOf_new hc]
    by_cases hv : vpn = area.startVa / pageSize + n
    case pos => subst hv; simp [MapArea.pageAt, hl]
    case neg =>
      have hpage : MapArea.pageAt { area with resident } vpn = area.pageAt vpn := by
        simp only [MapArea.pageAt, hl]
        split
        case isTrue hle => rw [if_neg (by omega)]
        case isFalse => rfl
      rw [Function.update_of_ne hv, hpage, h.entries]

theorem insertFrames_spec {supply : List Ppn} {pageTable₀ : PageTable} {area₀ : MapArea}
    (h : Filled supply pageTable₀ area₀ n pageTable area) (hn : n + pages ≤ area.pageCount)
    (hs : ∀ f ∈ frames.supply, f ∈ supply) (hl : area₀.flags.hasLeafPermission) (hc : ¬area₀.flags.cow) :
    (∃ pageTable' frames' error,
      insertFrames area₀.flags (area₀.startVa / pageSize) pages (area₀.startVa / pageSize + n)
        pageTable area frames = (pageTable', frames', .error error) ∧
      ∀ vpn pte, pageTable' vpn = some pte → pageTable₀ vpn = some pte) ∨
    ∃ pageTable' frames' area',
      insertFrames area₀.flags (area₀.startVa / pageSize) pages (area₀.startVa / pageSize + n)
        pageTable area frames = (pageTable', frames', .ok area') ∧
      Filled supply pageTable₀ area₀ (n + pages) pageTable' area' := by
  induction pages generalizing n pageTable area frames
  case zero => exact .inr ⟨pageTable, frames, area, rfl, h⟩
  case succ pages hi =>
    cases ha : frames.allocFrame
    case none =>
      refine .inl ⟨_, frames, .ENOMEM, by simp only [insertFrames, ha]; rfl, fun vpn pte he => ?_⟩
      rw [PageTable.unmapPagesWithoutFlush_apply] at he
      split at he
      case isTrue => cases he
      case isFalse hm =>
        -- The pages outside of the range that was unmapped have no new entries.
        have hnone : area.pageAt vpn = none := by
          by_contra hp
          have ⟨page, hp⟩ := Option.ne_none_iff_exists'.mp hp
          have ⟨i, hv, hi⟩ := MapArea.pageAt_eq_some.mp hp
          have hlt : i < n := by
            by_contra hge
            rw [h.free i (Nat.le_of_not_lt hge)] at hi
            cases hi
          rw [h.startVa] at hv
          exact hm (List.mem_range'_1.mpr (by omega))
        rw [h.entries, hnone] at he
        exact he
    case some r =>
      obtain ⟨frame, frames'⟩ := r
      have ⟨hsup, _⟩ := Frames.allocFrame_eq_some ha
      have ⟨area', he, h'⟩ := h.append (by omega) (hs frame (by simp [hsup])) (h.flags ▸ hc)
      have hcount : area'.pageCount = area.pageCount := by
        simp only [MapArea.pageCount, MapArea.size, h'.startVa, h'.endVa, h.startVa, h.endVa]
      have hs' : ∀ f ∈ frames'.supply, f ∈ supply := fun f hf => hs f (by simp [hsup, hf])
      have hstep := hi h' (by omega) hs'
      rw [h.startVa, h.flags] at hstep
      simp only [insertFrames, ha, hl, ite_true, he]
      simpa only [Nat.add_assoc, Nat.add_comm 1 pages] using hstep

theorem Filled.init (h : area.WF) (hn : area.resident = .new) (supply : List Ppn)
    (pageTable : PageTable) : Filled supply pageTable area 0 pageTable area where
  wf        := h
  startVa   := rfl
  endVa     := rfl
  flags     := rfl
  backing   := rfl
  len       := by rw [hn]; rfl
  free      := by simp [hn]
  pages     := by simp [hn]
  entries _ := by simp [MapArea.pageAt, hn]

theorem pageRange_eq_some (h : pageRange startVa endVa = some (start, stop)) :
    start = alignDown startVa ∧ alignUp endVa = some stop ∧ start < stop := by
  simp only [pageRange, Option.bind_eq_some_iff, Option.ite_none_left_eq_some, Option.some.injEq,
    Prod.mk.injEq] at h
  obtain ⟨stop', hs, hlt, rfl, rfl⟩ := h
  exact ⟨rfl, hs, Nat.lt_of_not_le hlt⟩

-- The area that the insertions create is well-formed.
theorem withBacking_wf (h : pageRange startVa endVa = some (start, stop)) (permission : PTEFlags)
    (backing : MapAreaBacking) : (MapArea.withBacking start stop permission backing).WF := by
  have ⟨hs, he, hlt⟩ := pageRange_eq_some h
  exact .withBacking (hs ▸ alignDown_mod) (alignUp_mod he) hlt (alignUp_le_max he)

theorem appendEmpty_step (h : pageRange startVa endVa = some (start, stop)) (hu : permission.u) :
    Step fresh cached grant ms
      ⟨ms.pageTable, ms.areas ++ [MapArea.withBacking start stop permission backing]⟩ :=
  .append (withBacking_wf h permission backing) hu (fun _ _ he => .inr he) (by simp [MapArea.withBacking])

theorem insertLazyAreaWithBacking_step (hu : permission.u)
    (h : ms.insertLazyAreaWithBacking startVa endVa permission backing = .ok ms') :
    Step fresh cached grant ms ms' := by
  simp only [insertLazyAreaWithBacking] at h
  split at h
  case h_1 => cases h
  case h_2 start stop hr =>
    cases h
    exact (appendEmpty_step hr hu).trans coalesceAreas_step

theorem setAllResidentState_pageAt {state : PageState} :
    (area.setAllResidentState state).pageAt vpn =
    (area.pageAt vpn).map fun page => { page with state } := by
  simp only [MapArea.pageAt, MapArea.setAllResidentState, ResidentSet.updateAll_lookup]
  split <;> rfl

theorem isSharedMapping_iff : isSharedMapping area ↔ ¬area.backing.isPrivate := by
  unfold isSharedMapping MapAreaBacking.isPrivate
  cases area.backing
  case file _ _ shared => cases shared <;> simp
  all_goals simp

theorem markShared_wf (h : area.WF) : (markShared area).WF := by
  simp only [markShared]
  split
  case isTrue => exact h.setAllResidentState (by simp)
  case isFalse => exact h

theorem markShared_lookup (area : MapArea) : ∃ f : ResidentPage → ResidentPage,
    (∀ page, (f page).frame = page.frame ∧ ((f page).state = page.state ∨ (f page).state = .shared)) ∧
    ∀ n, (markShared area).resident.lookup n = (area.resident.lookup n).map f := by
  simp only [markShared]
  split
  case isTrue =>
    exact ⟨fun page => { page with state := .shared }, fun _ => ⟨rfl, .inr rfl⟩,
      fun n => ResidentSet.updateAll_lookup n⟩
  case isFalse => exact ⟨id, fun _ => ⟨rfl, .inl rfl⟩, by simp⟩

@[simp]
theorem markShared_flags : (markShared area).flags = area.flags := by
  simp only [markShared]
  split <;> rfl

@[simp]
theorem markShared_backing : (markShared area).backing = area.backing := by
  simp only [markShared]
  split <;> rfl

@[simp]
theorem markShared_startVa : (markShared area).startVa = area.startVa := by
  simp only [markShared]
  split <;> rfl

@[simp]
theorem markShared_endVa : (markShared area).endVa = area.endVa := by
  simp only [markShared]
  split <;> rfl

-- The loop of `insert_framed_area_with_backing` over all of the pages of its area.
theorem insertArea_spec (frames : Frames) (pageTable : PageTable) (backing : MapAreaBacking)
    (hr : pageRange startVa endVa = some (start, stop)) (hl : permission.hasLeafPermission)
    (hc : ¬permission.cow) :
    (∃ pageTable' frames' error,
      insertFrames permission (start / pageSize) (stop / pageSize - start / pageSize)
        (start / pageSize) pageTable (.withBacking start stop permission backing) frames =
        (pageTable', frames', .error error) ∧
      ∀ vpn pte, pageTable' vpn = some pte → pageTable vpn = some pte) ∨
    ∃ pageTable' frames' area,
      insertFrames permission (start / pageSize) (stop / pageSize - start / pageSize)
        (start / pageSize) pageTable (.withBacking start stop permission backing) frames =
        (pageTable', frames', .ok area) ∧
      Filled frames.supply pageTable (.withBacking start stop permission backing)
        (stop / pageSize - start / pageSize) pageTable' area := by
  have hw := withBacking_wf hr permission backing
  have hcount : 0 + (stop / pageSize - start / pageSize) ≤
      (MapArea.withBacking start stop permission backing).pageCount := by
    have := hw.start_aligned
    have := hw.end_aligned
    simp only [MapArea.pageCount, MapArea.size, MapArea.withBacking, pageSize] at *
    omega
  have hspec := insertFrames_spec (Filled.init hw rfl frames.supply pageTable) hcount
    (fun _ h => h) hl hc
  rw [Nat.zero_add] at hspec
  exact hspec

theorem insertFramedAreaWithBacking_step (frames : Frames) (startVa endVa : Nat)
    (hu : permission.u) (hc : ¬permission.cow)
    (hf : ∀ f ∈ frames.supply, fresh backing.isPrivate f) :
    Step fresh cached grant ms
      (ms.insertFramedAreaWithBacking frames startVa endVa permission backing).1 := by
  simp only [insertFramedAreaWithBacking]
  split
  case h_1 => exact .refl _
  case h_2 start stop hr =>
    split
    case isTrue => exact (appendEmpty_step hr hu).trans coalesceAreas_step
    case isFalse hl =>
      have hl : permission.hasLeafPermission := by simpa using hl
      rcases insertArea_spec frames ms.pageTable backing hr hl hc with
        ⟨pt, fr, error, heq, hsub⟩ | ⟨pt, fr, area, heq, hfill⟩
      case inl =>
        simp only [heq]
        exact .unmap hsub
      case inr =>
        simp only [heq]
        have hfl : area.flags = permission := hfill.flags
        have ⟨f, hf', hm⟩ := markShared_lookup area
        refine .trans (.append (markShared_wf hfill.wf) (by simpa [hfl] using hu)
          (fun vpn pte he => ?_) (fun i page hi => ?_)) coalesceAreas_step
        case refine_1 =>
          rw [hfill.entries] at he
          cases hpage : area.pageAt vpn
          case none => rw [hpage] at he; exact .inr he
          case some page =>
            have ⟨i, hv, hi⟩ := MapArea.pageAt_eq_some.mp hpage
            have hst : page.state ≠ .cow := by simp [(hfill.pages i page hi).2]
            have hst' : (f page).state ≠ .cow := by
              rcases (hf' page).2 with h | h <;> simp [h, hst]
            rw [hpage, Option.elim_some, pteOf_eq hst] at he
            refine .inl ⟨by simpa [hfl] using hl, f page, MapArea.pageAt_eq_some.mpr
              ⟨i, by simpa using hv, by rw [hm, hi]; rfl⟩, ?_⟩
            rwa [pteOf_eq hst', markShared_flags, (hf' page).1]
        case refine_2 =>
          rw [hm] at hi
          have ⟨page', hi', he⟩ := Option.map_eq_some_iff.mp hi
          rw [← he, (hf' page').1, markShared_backing, hfill.backing]
          exact hf _ (hfill.pages i page' hi').1

-- As long as no page is copy-on-write, the flags of an area are the ones of its entries.
theorem mapArea_eq (pageTable : PageTable) (hw : area.WF) (hl : area.flags.hasLeafPermission)
    (hc : ¬area.flags.cow) (hs : ∀ n page, area.resident.lookup n = some page → page.state ≠ .cow) :
    pageTable.mapPagesWithoutFlush ((area.resident.iterRange 0 area.pageCount).map fun (idx, page) =>
      ((area.startVa + idx * pageSize) / pageSize, page.frame, effectiveMappingFlags area.flags)) =
    mapAreaPages pageTable area := by
  simp only [mapAreaPages, hl, Bool.not_true, Bool.false_eq_true, ite_false]
  refine congrArg _ (List.map_congr_left fun entry hm => ?_)
  obtain ⟨_, _, hp⟩ := (ResidentSet.mem_iterRange hw.resident).mp hm
  simp [pageEntry, effectiveMappingFlags, effectiveMappingFlagsForPage, hc, hs _ _ hp]

theorem mapAreaPages_backed (hw : area.WF) (hl : area.flags.hasLeafPermission)
    (h : mapAreaPages pageTable area vpn = some pte) : area.Backs vpn pte ∨ pageTable vpn = some pte := by
  rw [mapAreaPages_apply hw hl] at h
  cases hp : area.pageAt vpn
  case none => rw [hp] at h; exact .inr h
  case some page => rw [hp] at h; exact .inl ⟨hl, page, hp, h⟩

theorem insertSharedFramedArea_step {shared : List Ppn} (hu : permission.u) (hc : ¬permission.cow)
    (hf : ∀ f ∈ shared, fresh backing.isPrivate f)
    (h : ms.insertSharedFramedArea startVa endVa permission backing shared = .ok ms') :
    Step fresh cached grant ms ms' := by
  simp only [insertSharedFramedArea] at h
  split at h
  case h_1 => cases h
  case h_2 start stop hr =>
    split at h
    case isTrue => cases h
    case isFalse hlen =>
      split at h
      case isTrue => cases h
      case isFalse =>
        have hw := withBacking_wf hr permission backing
        obtain ⟨resident, he, hw', hl, _⟩ := MapArea.replaceResident_ok hw (not_not.mp hlen)
        rw [he] at h
        cases h
        refine .trans (.append hw' hu (fun vpn pte hpte => ?_) (fun i page hi => ?_)) coalesceAreas_step
        case refine_1 =>
          split at hpte
          case isFalse => exact .inr hpte
          case isTrue hleaf =>
            have hstate : ∀ n page, resident.lookup n = some page → page.state ≠ .cow :=
              fun n page hp => by
                rw [hl, Option.map_eq_some_iff] at hp
                obtain ⟨_, _, hp⟩ := hp
                simp [← hp, ResidentPage.new]
            have hmap := mapArea_eq ms.pageTable hw' hleaf hc hstate
            exact mapAreaPages_backed hw' hleaf (hmap ▸ hpte)
        case refine_2 =>
          rw [hl, Option.map_eq_some_iff] at hi
          obtain ⟨frame, hm, hp⟩ := hi
          rw [← hp]
          exact hf frame (List.mem_of_getElem? hm)

end MemorySet

end WllOs
