import WllOs.Mm.PageFault
import WllOs.Mm.Theorems.Insert

namespace WllOs

variable {areas : List MapArea} {area area' : MapArea} {pageTable pageTable' : PageTable} {env : Env}
variable {vpn n i addr : Nat} {page : ResidentPage} {pte : Pte} {resident : ResidentSet} {frame : Ppn}
variable {ms ms' : MemorySet} {frames frames' : Frames}
variable {fresh : Bool → Ppn → Prop} {cached : Ppn → Prop} {grant : Bool → Ppn → Prop}

namespace MapArea

theorem WF.alignDown_iff (h : area.WF) :
    (area.startVa ≤ alignDown addr ∧ alignDown addr < area.endVa) ↔
    (area.startVa ≤ addr ∧ addr < area.endVa) := by
  have := h.start_aligned
  have := h.end_aligned
  simp only [alignDown, pageSize] at *
  omega

-- The index of the page of an address, as the page fault handler computes it.
theorem WF.index_eq (h : area.WF) (ha : area.startVa ≤ addr) :
    area.startVa / pageSize + (alignDown addr - area.startVa) / pageSize = addr / pageSize := by
  have := h.start_aligned
  simp only [alignDown, pageSize] at *
  omega

theorem WF.index_lt_pageCount (h : area.WF) (ha : area.startVa ≤ addr ∧ addr < area.endVa) :
    (alignDown addr - area.startVa) / pageSize < area.pageCount := by
  have := h.start_aligned
  have := h.end_aligned
  simp only [pageCount, size, alignDown, pageSize] at *
  omega

end MapArea

-- Some pages of an area become resident or change and are published.
theorem AreaStep.publish (hl : area.flags.hasLeafPermission) (pages : Nat → Prop)
    (hw : { area with resident }.WF)
    (hr : ∀ n, ¬pages n → resident.lookup n = area.resident.lookup n)
    (hp : ∀ n, pages n → ∃ page, resident.lookup n = some page ∧
      pageTable' (area.startVa / pageSize + n) = pteOf area.flags page)
    (hpt : ∀ vpn, (∀ n, pages n → vpn ≠ area.startVa / pageSize + n) → pageTable' vpn = pageTable vpn)
    (hd : ∀ n page, pages n → resident.lookup n = some page →
      Derived [area] fresh cached grant area.backing.isPrivate area.flags page) :
    AreaStep fresh cached grant area { area with resident } pageTable pageTable' where
  wf   := hw
  user := id
  backed vpn pte he := by
    by_cases hv : ∃ n, pages n ∧ vpn = area.startVa / pageSize + n
    case pos =>
      obtain ⟨n, hn, rfl⟩ := hv
      have ⟨page, hpage, hpte⟩ := hp n hn
      exact .inl ⟨hl, page, MapArea.pageAt_add.trans hpage, hpte ▸ he⟩
    case neg =>
      rw [hpt vpn fun n hn hv' => hv ⟨n, hn, hv'⟩] at he
      refine (Classical.em (area.Backs vpn pte)).imp ?_ fun hn => ⟨he, hn⟩
      rintro ⟨_, page, hpage, hpte⟩
      have ⟨n, hv', hn⟩ := MapArea.pageAt_eq_some.mp hpage
      refine ⟨hl, page, MapArea.pageAt_eq_some.mpr ⟨n, hv', ?_⟩, hpte⟩
      rw [hr n fun hpn => hv ⟨n, hpn, hv'⟩]
      exact hn
  derived n page hn := by
    by_cases hpn : pages n
    case pos => exact hd n page hpn hn
    case neg => exact .of_lookup ((hr n hpn) ▸ hn)

theorem Step.set (hi : ms.areas[i]? = some area)
    (h : area.WF → AreaStep fresh cached grant area area' ms.pageTable pageTable') :
    Step fresh cached grant ms ⟨pageTable', ms.areas.set i area'⟩ := by
  have hstep := AreaStep.step h (ms.areas.take i) (ms.areas.drop (i + 1))
  rwa [← Lists.split_at hi, ← Lists.set_split hi] at hstep

namespace MemorySet

-- Lookups do not distinguish the addresses of a page.
theorem areaContaining_alignDown (hw : ∀ a ∈ ms.areas, a.WF) (addr : Nat) :
    ms.areaContaining (alignDown addr) = ms.areaContaining addr := by
  have h : ∀ a ∈ ms.areas, locate (alignDown addr) a = locate addr a := fun a ha => by
    have := (hw a ha).start_aligned
    have := (hw a ha).end_aligned
    have h₁ : alignDown addr < a.startVa ↔ addr < a.startVa := by
      simp only [alignDown, pageSize] at *
      omega
    have h₂ : alignDown addr ≥ a.endVa ↔ addr ≥ a.endVa := by
      simp only [alignDown, pageSize] at *
      omega
    simp only [locate, h₁, h₂]
  simp only [areaContaining, areaIndexContaining, BinarySearch.find_congr h]

-- The effect of a fault that is resolved by making pages of an area resident. The page with index `n`
-- may be one of them.
structure Resolved (fresh : Bool → Ppn → Prop) (cached : Ppn → Prop) (grant : Bool → Ppn → Prop)
    (ms ms' : MemorySet) (i : Nat) (area : MapArea) (resident : ResidentSet) : Prop where
  areas : ms'.areas = ms.areas.set i { area with resident }
  step  : AreaStep fresh cached grant area { area with resident } ms.pageTable ms'.pageTable

-- A page that is resident and published with the flags of its area.
def Published (ms : MemorySet) (area : MapArea) (n : Nat) (page : ResidentPage) : Prop :=
  area.resident.lookup n = some page ∧
  ms.pageTable (area.startVa / pageSize + n) = pteOf area.flags page

theorem setAndMapPage_resolved (ms : MemorySet) (i : Nat) (hl : area.flags.hasLeafPermission)
    (hw : { area with resident }.WF)
    (hp : resident.lookup n = some page)
    (hr : ∀ m, m ≠ n → resident.lookup m = area.resident.lookup m)
    (hd : Derived [area] fresh cached grant area.backing.isPrivate area.flags page) :
    Resolved fresh cached grant ms (ms.setAndMapPage i { area with resident } n) i area resident ∧
    (ms.setAndMapPage i { area with resident } n).Published { area with resident } n page := by
  have hpt : ∀ vpn, (ms.setAndMapPage i { area with resident } n).pageTable vpn =
      if vpn = area.startVa / pageSize + n then pteOf area.flags page else ms.pageTable vpn :=
    fun vpn => mapAreaPage_apply hw hl hp
  refine ⟨⟨rfl, .publish hl (· = n) hw hr ?_ ?_ ?_⟩, hp, by simp [hpt]⟩
  case refine_1 =>
    rintro m rfl
    exact ⟨page, hp, by simp [hpt]⟩
  case refine_2 =>
    intro vpn hv
    rw [hpt, if_neg (hv n rfl)]
  case refine_3 =>
    rintro m page' rfl hm
    rw [hp, Option.some.injEq] at hm
    exact hm ▸ hd

-- Only the entry of the page that is published changes.
theorem publishPrivatePage_apply {pageStart : Nat} {area' : MapArea} (ms : MemorySet) (i vpn : Nat)
    (hl : area.flags.hasLeafPermission) (hw : { area with resident }.WF)
    (hv : pageStart / pageSize = area.startVa / pageSize + n) (hp : resident.lookup n = some ⟨frame, .priv⟩)
    (ha : area'.setResidentState n .priv = { area with resident }) :
    (ms.publishPrivatePage i area' n pageStart).pageTable vpn =
    if vpn = area.startVa / pageSize + n then pteOf area.flags ⟨frame, .priv⟩ else ms.pageTable vpn := by
  simp only [publishPrivatePage, setAndMapPage, ha]
  rw [mapAreaPage_apply hw hl hp]
  split
  case isTrue => rfl
  case isFalse hne => simp [PageTable.unmapPage, hv, hne]

theorem publishPrivatePage_resolved {pageStart : Nat} (hl : area.flags.hasLeafPermission)
    (hw : { area with resident }.WF) (hv : pageStart / pageSize = area.startVa / pageSize + n)
    (hp : resident.lookup n = some ⟨frame, .priv⟩)
    (hr : ∀ m, m ≠ n → resident.lookup m = area.resident.lookup m)
    (hf : fresh area.backing.isPrivate frame) {area' : MapArea}
    (ha : area'.setResidentState n .priv = { area with resident }) :
    Resolved fresh cached grant ms (ms.publishPrivatePage i area' n pageStart) i area resident ∧
    (ms.publishPrivatePage i area' n pageStart).Published { area with resident } n ⟨frame, .priv⟩ := by
  have hpt : ∀ vpn, (ms.publishPrivatePage i area' n pageStart).pageTable vpn =
      if vpn = area.startVa / pageSize + n then pteOf area.flags ⟨frame, .priv⟩
      else ms.pageTable vpn := fun vpn => publishPrivatePage_apply ms i vpn hl hw hv hp ha
  refine ⟨⟨by simp [publishPrivatePage, setAndMapPage, ha], .publish hl (· = n) hw hr ?_ ?_ ?_⟩, hp,
    by simp [hpt]⟩
  case refine_1 =>
    rintro m rfl
    exact ⟨_, hp, by simp [hpt]⟩
  case refine_2 =>
    intro vpn hv
    rw [hpt, if_neg (hv n rfl)]
  case refine_3 =>
    rintro m page' rfl hm
    rw [hp, Option.some.injEq] at hm
    exact .inl (hm ▸ hf)

-- The frames that were handed out between two states of the allocator.
def Consumed (frames frames' : Frames) (frame : Ppn) : Prop :=
  ∃ used, used ++ frames'.supply = frames.supply ∧ frame ∈ used

theorem allocFrame_consumed (h : frames.allocFrame = some (frame, frames')) :
    Consumed frames frames' frame ∧ frames'.supply <:+ frames.supply := by
  have ⟨hs, _⟩ := Frames.allocFrame_eq_some h
  exact ⟨⟨[frame], by simp [hs], by simp⟩, [frame], by simp [hs]⟩

theorem update_update_lookup {set : ResidentSet} {f g : ResidentPage → ResidentPage} (h : set.WF)
    (m : Nat) : ((set.update n f).update n g).lookup m =
    if m = n then (set.lookup m).map (g ∘ f) else set.lookup m := by
  rw [ResidentSet.update_lookup (ResidentSet.update_wf h), ResidentSet.update_lookup h]
  split
  case isTrue => simp
  case isFalse => rfl

theorem resolveCowPage_resolved (cached : Ppn → Prop) (grant : Bool → Ppn → Prop) {pageStart : Nat}
    (hw : area.WF)
    (hc : ms.areaContaining pageStart = some (i, area)) (ha : alignDown pageStart = pageStart)
    (hrc : ∀ n page, area.resident.lookup n = some page → 0 < env.refCount page.frame)
    (hf : ∀ f, Consumed frames frames' f → fresh area.backing.isPrivate f)
    (h : resolveCowPage env ms frames pageStart = .ok (ms', frames')) :
    (area.backing.isPrivate ∧ area.flags.cow ∧ area.flags.w) ∧
    frames'.supply <:+ frames.supply ∧
    ∃ resident frame, Resolved fresh cached grant ms ms' i area resident ∧
    ms'.Published { area with resident } ((pageStart - area.startVa) / pageSize) ⟨frame, .priv⟩ := by
  have ⟨_, hs, he⟩ := areaContaining_sound hc
  have hv : pageStart / pageSize = area.startVa / pageSize + (pageStart - area.startVa) / pageSize := by
    have := hw.index_eq hs
    rw [ha] at this
    exact this.symm
  have hn : (pageStart - area.startVa) / pageSize < area.pageCount := by
    have := hw.index_lt_pageCount ⟨hs, he⟩
    rwa [ha] at this
  simp only [resolveCowPage, hc] at h
  generalize (pageStart - area.startVa) / pageSize = n at *
  split at h
  case isTrue => cases h
  case isFalse hflags =>
    have hflags : area.backing.isPrivate ∧ area.flags.cow ∧ area.flags.w := by
      simpa [and_assoc] using hflags
    have hl : area.flags.hasLeafPermission := by simp [PTEFlags.hasLeafPermission, hflags]
    refine ⟨hflags, ?_⟩
    split at h
    case h_1 source hsource =>
      have hcount := hrc n source hsource
      rw [if_pos (by omega)] at h
      split at h
      case h_1 => cases h
      case h_2 frame frames₁ halloc =>
        have ⟨hused, hsuf⟩ := allocFrame_consumed halloc
        simp only [MapArea.replaceResidentPage, hsource] at h
        cases h
        have hres : ∀ m, ((area.resident.update n fun page => { page with frame }).update n
            fun page => { page with state := .priv }).lookup m =
            if m = n then some ⟨frame, .priv⟩ else area.resident.lookup m := fun m => by
          rw [update_update_lookup hw.resident]
          split
          case isTrue he => simp [he, hsource]
          case isFalse => rfl
        have hw₁ := hw.update (n := n) (f := fun page => { page with frame })
          fun page _ _ => hflags.1
        have hw₂ := hw₁.update (n := n) (f := fun page => { page with state := .priv })
          fun page _ hcow => nomatch hcow
        exact ⟨hsuf, _, frame, publishPrivatePage_resolved hl hw₂ hv (by simp [hres])
          (fun m hm => by simp [hres, hm]) (hf frame hused) rfl⟩
    case h_2 hnone =>
      split at h
      case h_1 => cases h
      case h_2 frame frames₁ halloc =>
        have ⟨hused, hsuf⟩ := allocFrame_consumed halloc
        split at h
        case h_1 => cases h
        case h_2 =>
          have ⟨resident, hins, hw₁, hres⟩ := MapArea.insertResidentPage_ok frame .priv hw hn hnone
            (by simp)
          rw [hins] at h
          cases h
          have hres' : ∀ m, (resident.update n fun page => { page with state := .priv }).lookup m =
              if m = n then some ⟨frame, .priv⟩ else area.resident.lookup m := fun m => by
            rw [ResidentSet.update_lookup hw₁.resident, hres]
            by_cases hm : m = n <;> simp [hm]
          have hw₂ := hw₁.update (n := n) (f := fun page => { page with state := .priv })
            fun page _ hcow => nomatch hcow
          exact ⟨hsuf, _, frame, publishPrivatePage_resolved hl hw₂ hv (by simp [hres'])
            (fun m hm => by simp [hres', hm]) (hf frame hused) rfl⟩

-- The windows of pages that a fault makes resident.

theorem takeWhile_length_spec (p : Nat → Bool) (start len : Nat) :
    (((List.range' start len).takeWhile p).length ≤ len) ∧
    ∀ j < ((List.range' start len).takeWhile p).length, p (start + j) := by
  induction len generalizing start
  case zero => simp
  case succ len hi =>
    rw [List.range'_succ]
    by_cases hp : p start
    case neg => simp [hp]
    case pos =>
      have ⟨h₁, h₂⟩ := hi (start + 1)
      rw [List.takeWhile_cons_of_pos hp, List.length_cons]
      refine ⟨by omega, fun j hj => ?_⟩
      cases j
      case zero => exact hp
      case succ j => simpa [Nat.add_comm 1 j, Nat.add_assoc] using h₂ j (by omega)

theorem forwardPages_spec (resident : ResidentSet) (idx maxPages : Nat) :
    forwardPages resident idx maxPages ≤ maxPages ∧
    ∀ j < forwardPages resident idx maxPages, resident.lookup (idx + j) = none := by
  have ⟨h₁, h₂⟩ := takeWhile_length_spec (fun n => (resident.lookup (idx + n)).isNone) 0 maxPages
  rw [← List.range_eq_range'] at h₁ h₂
  exact ⟨h₁, fun j hj => by simpa using h₂ j hj⟩

theorem backwardPages_spec (resident : ResidentSet) (idx maxPages : Nat) :
    backwardPages resident idx maxPages ≤ max 1 maxPages ∧
    1 ≤ backwardPages resident idx maxPages ∧
    ∀ j, 1 ≤ j → j < backwardPages resident idx maxPages → resident.lookup (idx - j) = none := by
  have ⟨h₁, h₂⟩ := takeWhile_length_spec (fun n => (resident.lookup (idx - n)).isNone) 1 (maxPages - 1)
  refine ⟨by simp only [backwardPages]; omega, by simp only [backwardPages]; omega, fun j h hj => ?_⟩
  have := h₂ (j - 1) (by simp only [backwardPages] at hj; omega)
  simpa [show 1 + (j - 1) = j by omega] using this

theorem anonymousWindow_spec {pageStart : Nat} (hw : area.WF) (hn : n < area.pageCount)
    (hs : area.startVa ≤ pageStart) (hi : n = (pageStart - area.startVa) / pageSize)
    (ha : pageStart % pageSize = 0) (hf : area.resident.lookup n = none) :
    (anonymousWindow area pageStart n).1 ≤ n ∧
    n < (anonymousWindow area pageStart n).1 + (anonymousWindow area pageStart n).2 ∧
    (anonymousWindow area pageStart n).1 + (anonymousWindow area pageStart n).2 ≤ area.pageCount ∧
    ∀ j, (anonymousWindow area pageStart n).1 ≤ j →
      j < (anonymousWindow area pageStart n).1 + (anonymousWindow area pageStart n).2 →
      area.resident.lookup j = none := by
  have hend : (area.endVa - pageStart) / pageSize = area.pageCount - n := by
    have := hw.start_aligned
    have := hw.end_aligned
    simp only [MapArea.pageCount, MapArea.size, pageSize] at *
    omega
  obtain ⟨hf₁, hf₂⟩ := forwardPages_spec area.resident n
    (min (area.pageCount - n) anonymousFaultWindowPages)
  obtain ⟨hb₁, hb₂, hb₃⟩ := backwardPages_spec area.resident n (min (n + 1) anonymousFaultWindowPages)
  simp only [anonymousWindow, hend]
  generalize forwardPages area.resident n (min (area.pageCount - n) anonymousFaultWindowPages) =
    forward at *
  generalize hback : (if forward < anonymousFaultWindowPages then
    backwardPages area.resident n (min (n + 1) anonymousFaultWindowPages) else 1) = backward
  have hb : backward ≤ n + 1 ∧ 1 ≤ backward ∧
      ∀ j, 1 ≤ j → j < backward → area.resident.lookup (n - j) = none := by
    rw [← hback]
    split
    case isTrue => exact ⟨by omega, hb₂, hb₃⟩
    case isFalse => exact ⟨by omega, le_refl 1, fun j h₁ h₂ => by omega⟩
  split
  case isTrue hlt =>
    refine ⟨by simp only; omega, by simp only; omega, by simp only; omega, fun j h₁ h₂ => ?_⟩
    by_cases hj : j = n
    case pos => exact hj ▸ hf
    case neg =>
      have := hb.2.2 (n - j) (by simp only at h₁ h₂; omega) (by simp only at h₁ h₂; omega)
      rwa [show n - (n - j) = j by simp only at h₁ h₂; omega] at this
  case isFalse hge =>
    refine ⟨le_refl n, by simp only; omega, by simp only; omega, fun j h₁ h₂ => ?_⟩
    have := hf₂ (j - n) (by simp only at h₁ h₂; omega)
    rwa [show n + (j - n) = j by simp only at h₁; omega] at this

theorem allocFrames_spec (count : Nat) (frames : Frames) :
    (allocFrames count frames).1 = frames.supply.take count ∧
    (allocFrames count frames).2.supply = frames.supply.drop count := by
  induction count generalizing frames
  case zero => simp [allocFrames]
  case succ count hi =>
    cases ha : frames.allocFrame
    case none =>
      have hs : frames.supply = [] := by
        simp only [Frames.allocFrame] at ha
        split at ha
        case h_1 h => exact h
        case h_2 => cases ha
      simp [allocFrames, ha, hs]
    case some r =>
      obtain ⟨frame, frames₁⟩ := r
      obtain ⟨hs, _⟩ := Frames.allocFrame_eq_some ha
      obtain ⟨h₁, h₂⟩ := hi frames₁
      simp [allocFrames, ha, hs, h₁, h₂]

theorem installRun_resolved (ms : MemorySet) (i : Nat) {run : List Ppn} {state : PageState} (hw : area.WF)
    (hl : area.flags.hasLeafPermission) (hr : run ≠ []) (hb : n + run.length ≤ area.pageCount)
    (hf : ∀ j, n ≤ j → j < n + run.length → area.resident.lookup j = none) (hs : state ≠ .cow)
    (hd : ∀ f ∈ run,
      Derived [area] fresh cached grant area.backing.isPrivate area.flags ⟨f, state⟩) :
    ∃ ms' resident, ms.installRun i area n run state = .ok ms' ∧
    Resolved fresh cached grant ms ms' i area resident ∧
    (∀ j, n ≤ j → j < n + run.length →
      ∃ page, page.state = state ∧ ms'.Published { area with resident } j page) ∧
    ∀ j, ¬(n ≤ j ∧ j < n + run.length) →
      ms'.pageTable (area.startVa / pageSize + j) = ms.pageTable (area.startVa / pageSize + j) := by
  obtain ⟨resident, he, hw', hins⟩ := MapArea.insertResidentRun_ok state hw hr hb hf fun h => absurd h hs
  have hsat : Usize.saturatingAdd n run.length = n + run.length :=
    Usize.saturatingAdd_eq (hb.trans hw.pageCount_lt_max.le)
  have hin : ∀ j, n ≤ j → j < n + run.length → ∃ f ∈ run, resident.lookup j = some ⟨f, state⟩ :=
    fun j h₁ h₂ => by
      have hlt : j - n < run.length := by omega
      refine ⟨run[j - n], List.getElem_mem hlt, ?_⟩
      rw [hins.lookup]
      simp [RunMap.at?, h₁, hlt]
  have hout : ∀ j, ¬(n ≤ j ∧ j < n + run.length) → resident.lookup j = area.resident.lookup j :=
    fun j hj => by
      rw [hins.lookup, RunMap.at?_eq_none.mpr (by simp; omega), Option.none_or]
  have hpt : ∀ vpn, mapAreaPageWindow ms.pageTable { area with resident } n run.length vpn =
      if area.startVa / pageSize + n ≤ vpn ∧ vpn < area.startVa / pageSize + (n + run.length) then
        (MapArea.pageAt { area with resident } vpn).elim (ms.pageTable vpn) (pteOf area.flags)
      else ms.pageTable vpn := fun vpn => by
    have hcount : MapArea.pageCount { area with resident } = area.pageCount := rfl
    simp only [mapAreaPageWindow, hl, Bool.not_true, Bool.false_eq_true, ite_false, hsat, hcount,
      Nat.min_eq_left hb]
    exact mapEntries_apply hw' n (n + run.length)
  have hpub : ∀ j f, n ≤ j → j < n + run.length → resident.lookup j = some ⟨f, state⟩ →
      mapAreaPageWindow ms.pageTable { area with resident } n run.length (area.startVa / pageSize + j) =
      pteOf area.flags ⟨f, state⟩ := fun j f h₁ h₂ hj => by
    have hpage : MapArea.pageAt { area with resident } (area.startVa / pageSize + j) =
      some ⟨f, state⟩ := MapArea.pageAt_add.trans hj
    rw [hpt, if_pos (by omega), hpage]
    rfl
  refine ⟨⟨mapAreaPageWindow ms.pageTable { area with resident } n run.length,
    ms.areas.set i { area with resident }⟩, resident, by simp [installRun, he], ⟨rfl, ?_⟩, ?_, ?_⟩
  case refine_1 =>
    refine .publish hl (fun j => n ≤ j ∧ j < n + run.length) hw' hout ?_ ?_ ?_
    case refine_1 =>
      intro j hj
      obtain ⟨f, _, hf⟩ := hin j hj.1 hj.2
      exact ⟨_, hf, hpub j f hj.1 hj.2 hf⟩
    case refine_2 =>
      intro vpn hv
      refine (hpt vpn).trans (if_neg fun hr => ?_)
      exact hv (vpn - area.startVa / pageSize) (by omega) (by omega)
    case refine_3 =>
      intro j page hj hp
      obtain ⟨f, hm, hf⟩ := hin j hj.1 hj.2
      rw [hf, Option.some.injEq] at hp
      exact hp ▸ hd f hm
  case refine_2 =>
    intro j h₁ h₂
    obtain ⟨f, _, hf⟩ := hin j h₁ h₂
    exact ⟨⟨f, state⟩, rfl, hf, hpub j f h₁ h₂ hf⟩
  case refine_3 =>
    intro j hj
    exact (hpt _).trans (if_neg (by omega))

end MemorySet

end WllOs
