import WllOs.Mm.Heap
import WllOs.Mm.Theorems.CowResolve

namespace WllOs

variable {ms ms' : MemorySet} {area : MapArea} {frames frames' : Frames} {env : Env} {cached : Ppn → Prop}
variable {vpn addr n i : Nat} {view : PageView} {page : ResidentPage}

namespace MemorySet

-- Frames are handed out zeroed.
theorem allocFrames_zero (count : Nat) (frames : Frames) :
    ∀ frame ∈ (allocFrames count frames).1, (allocFrames count frames).2.mem frame = .zero := by
  have hkeep : ∀ count frames frame, Frames.mem frames frame = .zero →
      (allocFrames count frames).2.mem frame = .zero := by
    intro count
    induction count
    case zero => exact fun _ _ h => h
    case succ count hi =>
      intro frames frame h
      cases ha : frames.allocFrame
      case none => simpa only [allocFrames, ha] using h
      case some r =>
        obtain ⟨_, hm⟩ := Frames.allocFrame_eq_some ha
        simp only [allocFrames, ha]
        refine hi r.2 frame ?_
        by_cases he : frame = r.1
        case pos => simp [hm, he]
        case neg => simp [hm, Function.update_of_ne he, h]
  induction count generalizing frames
  case zero => simp [allocFrames]
  case succ count hi =>
    cases ha : frames.allocFrame
    case none => simp [allocFrames, ha]
    case some r =>
      obtain ⟨_, hm⟩ := Frames.allocFrame_eq_some ha
      simp only [allocFrames, ha, List.forall_mem_cons]
      exact ⟨hkeep count r.2 r.1 (by simp [hm]), hi r.2⟩

-- A fault of an anonymous area makes pages of its window resident, all of which are new.
theorem anonymousFault_zero (hw : ms.WF) (hc : ms.areaContaining addr = some (i, area))
    (hn : area.resident.lookup ((alignDown addr - area.startVa) / pageSize) = none)
    (h : ms.anonymousFault frames area (alignDown addr) ((alignDown addr - area.startVa) / pageSize) =
      .ok (ms', frames')) :
    ∃ resident, ms'.areas = ms.areas.set i { area with resident } ∧
    ∀ n page, resident.lookup n = some page →
      area.resident.lookup n = some page ∨ frames'.mem page.frame = .zero := by
  obtain ⟨hget, hrange⟩ := areaContaining_sound hc
  have hwa := hw.areas area (areaContaining_mem hc)
  have hlt := hwa.index_lt_pageCount hrange
  have hstart := (hwa.alignDown_iff.mpr hrange).1
  obtain ⟨_, _, hle, hfree⟩ := anonymousWindow_spec hwa hlt hstart rfl alignDown_mod hn
  have hzero := allocFrames_zero (anonymousWindow area (alignDown addr)
    ((alignDown addr - area.startVa) / pageSize)).2 frames
  obtain ⟨hrun, _⟩ := allocFrames_spec (anonymousWindow area (alignDown addr)
    ((alignDown addr - area.startVa) / pageSize)).2 frames
  simp only [anonymousFault, (areaContaining_alignDown hw.areas addr).trans hc] at h
  generalize (anonymousWindow area (alignDown addr) ((alignDown addr - area.startVa) / pageSize)).1 = first at *
  generalize (anonymousWindow area (alignDown addr) ((alignDown addr - area.startVa) / pageSize)).2 = count at *
  split at h
  case isTrue => cases h
  case isFalse hne =>
    have hlen : (allocFrames count frames).1.length ≤ count := by
      rw [hrun, List.length_take]
      omega
    obtain ⟨resident, he, _, hins⟩ : ∃ resident,
        area.insertResidentRun first (allocFrames count frames).1 .priv = .ok { area with resident } ∧
        { area with resident }.WF ∧
        area.resident.Inserted first ((allocFrames count frames).1.map (⟨·, .priv⟩)) resident :=
      MapArea.insertResidentRun_ok .priv hwa (by simpa using hne) (by omega)
        (fun j h₁ h₂ => hfree j h₁ (by omega)) fun hc => by cases hc
    simp only [installRun, he] at h
    cases h
    refine ⟨resident, rfl, fun n page hp => ?_⟩
    rw [hins.lookup, Option.or_eq_some_iff] at hp
    cases hp
    case inr hp => exact .inl hp.2
    case inl hp =>
      obtain ⟨_, hget⟩ := RunMap.at?_eq_some.mp hp
      obtain ⟨frame, hm, he⟩ := List.mem_map.mp (List.mem_of_getElem? hget)
      exact .inr (he ▸ hzero frame hm)

-- A page of an anonymous area that is not zeroed in a window has nothing to be read from.
theorem backingFault_zero (hw : ms.WF) (hc : ms.areaContaining addr = some (i, area)) (hb : area.backing = .anonymous)
    (hn : area.resident.lookup ((alignDown addr - area.startVa) / pageSize) = none)
    (h : backingFault env ms frames (alignDown addr) ((alignDown addr - area.startVa) / pageSize) =
      .ok (ms', frames')) :
    ∃ resident, ms'.areas = ms.areas.set i { area with resident } ∧
    ∀ n page, area.resident.lookup n = none → resident.lookup n = some page → frames'.mem page.frame = .zero := by
  have hwa := hw.areas area (areaContaining_mem hc)
  have hlt := hwa.index_lt_pageCount (areaContaining_sound hc).2
  simp only [backingFault, areaContaining_alignDown hw.areas, hc, hn, Option.isSome_none, Bool.false_eq_true, if_false,
    hb, readBackingPage] at h
  split at h
  case h_1 => cases h
  case h_2 frame frames₁ halloc =>
    obtain ⟨resident, hins, _, hres⟩ := MapArea.insertResidentPage_ok frame .priv hwa hlt hn (by simp)
    simp only [backingPageState, hins] at h
    cases h
    refine ⟨resident, rfl, fun n page hnone hp => ?_⟩
    rw [hres] at hp
    split at hp
    case isTrue => cases hp; simp [Frames.write]
    case isFalse => rw [hnone] at hp; cases hp

-- A fault in an anonymous area fills the pages that become resident with zeros.
theorem handlePageFault_zero (hw : ms.WF) (henv : env.Lawful cached) (hc : ms.areaContaining addr = some (i, area))
    (hb : area.backing = .anonymous) {isStore isExec : Bool}
    (h : handlePageFault env ms frames addr isStore isExec = .ok (ms', frames')) :
    ∃ resident, ms'.areas = ms.areas.set i { area with resident } ∧
    ∀ n page, area.resident.lookup n = none → resident.lookup n = some page → frames'.mem page.frame = .zero := by
  obtain ⟨hget, hrange⟩ := areaContaining_sound hc
  have hwa := hw.areas area (areaContaining_mem hc)
  have hc' := (areaContaining_alignDown hw.areas addr).trans hc
  have hsame : ms.areas = ms.areas.set i area := by
    obtain ⟨_, he⟩ := List.getElem?_eq_some_iff.mp hget
    rw [← he, List.set_getElem_self]
  have hkeep : ∀ n page, area.resident.lookup n = none → area.resident.lookup n = some page →
      frames'.mem page.frame = .zero := fun n page hn hp => by simp [hn] at hp
  simp only [handlePageFault, hc] at h
  split at h
  case isTrue => cases h
  case isFalse =>
    split at h
    case isTrue =>
      have hcow := isCow_of_resolveCowPage hc' h
      have hpage : ms.areaContaining (addr / pageSize * pageSize) = some (i, area) := hc'
      obtain ⟨frame, rest, _, _, hp, data, hdata, hmem⟩ :=
        resolveCowPage_spec hwa hpage hcow henv.refCount_pos h
      obtain ⟨resident, ha, hlook, hother⟩ := hp.page
      refine ⟨resident, ha, fun n page hn hres => ?_⟩
      by_cases he : n = area.indexOf (addr / pageSize)
      case neg => rw [hother n he, hn] at hres; cases hres
      case pos =>
        rw [he, hlook, Option.some.injEq] at hres
        rw [he] at hn
        simp only [MapArea.contents, hn, hb, readBackingPage, Except.ok.injEq] at hdata
        rw [← hres, hmem, Function.update_self, hdata]
    case isFalse =>
      split at h
      case isTrue =>
        cases h
        exact ⟨area.resident, hsame, hkeep⟩
      case isFalse =>
        split at h
        case isTrue =>
          cases h
          exact ⟨area.resident, rfl, hkeep⟩
        case isFalse hn =>
          have hn : area.resident.lookup ((alignDown addr - area.startVa) / pageSize) = none := by simpa using hn
          split at h
          case isTrue =>
            obtain ⟨resident, ha, hzero⟩ := anonymousFault_zero hw hc hn h
            exact ⟨resident, ha, fun n page hnone hp => (hzero n page hp).resolve_left (by simp [hnone])⟩
          case isFalse =>
            simp only [cleanCachePage, hb, ite_self] at h
            exact backingFault_zero hw hc hb hn h

-- A page changes its meaning only with the area that contains it.
theorem meaning_of_set {resident : ResidentSet} (hi : ms.areas[i]? = some area)
    (ha : ms'.areas = ms.areas.set i { area with resident }) (h : ms'.meaning vpn = some view) :
    ms.meaning vpn = some view ∨ MapArea.view { area with resident } vpn = some view := by
  simp only [meaning, ha, Lists.set_split hi, List.findSome?_append, List.findSome?_cons] at h
  have hsome : (MapArea.view { area with resident } vpn = none) ↔ area.view vpn = none := by
    simp [MapArea.view_eq_none]
  simp only [meaning]
  conv => lhs; rw [Lists.split_at hi]
  simp only [List.findSome?_append, List.findSome?_cons]
  cases hp : (ms.areas.take i).findSome? (·.view vpn)
  case some => exact .inl (by simpa [hp] using h)
  case none =>
    cases hv : MapArea.view { area with resident } vpn
    case none => exact .inl (by simpa [hp, hv, hsome.mp hv] using h)
    case some => exact .inr (by simpa [hp, hv] using h)

-- A page that no area has resident reads as zero.
theorem Coherent.readsZero (hw : ms.Coherent) (h : ms.meaning vpn = some view) (hb : view.backing = .anonymous)
    (hp : view.page = none) : ms.ReadsZero vpn := by
  have hview : ∀ a ∈ ms.areas, ∀ v, a.view vpn = some v → v = view := fun a ha v hv => by
    have hm := hw.sorted.meaning_eq_some.mpr ⟨a, ha, hv⟩
    simpa [h, eq_comm] using hm
  have habsent : ∀ v, ms.meaning vpn = some v → v.page = none := fun v hv => by
    rw [h, Option.some.injEq] at hv
    exact hv ▸ hp
  refine ⟨habsent, hw.pteCoherent.absent vpn fun area ha hc => .inr ?_, ?_⟩
  case refine_1 =>
    have hbounds := MapArea.contains_iff_bounds.mp hc
    have hpage := hview area ha _ (MapArea.view_eq_some.mpr ⟨hbounds.1, hbounds.2, rfl⟩)
    exact (congrArg PageView.page hpage).trans hp
  case refine_2 =>
    intro env frames addr access ms' frames' v page henv hf hm hres
    obtain ⟨_, i, area, hc, _, hcases⟩ := handlePageFault_ok (fun _ _ => True) hw.areas henv hf
    have hi := (areaContaining_sound hc).1
    cases hv : area.view vpn
    case none =>
      -- The fault does not concern the area of the page.
      have hsame : ms.meaning vpn = some v := by
        rcases hcases with ⟨rfl, _⟩ | ⟨resident, hresolved, _⟩
        · exact hm
        · refine (meaning_of_set hi hresolved.areas hm).resolve_right fun hv' => ?_
          obtain ⟨hs, he, _⟩ := MapArea.view_eq_some.mp hv'
          exact MapArea.view_eq_none.mp hv ⟨hs, he⟩
      rw [habsent v hsame] at hres
      cases hres
    case some v' =>
      have hpage := hview area (areaContaining_mem hc) v' hv
      obtain ⟨_, _, he⟩ := MapArea.view_eq_some.mp hv
      have hbacking : area.backing = .anonymous := by
        have := (congrArg PageView.backing (he.symm.trans hpage)).trans hb
        cases ha : area.backing <;> simp [ha, MapAreaBacking.page] at this ⊢
      have hnone : area.resident.lookup ((vpn * pageSize - area.startVa) / pageSize) = none :=
        (congrArg PageView.page (he.symm.trans hpage)).trans hp
      obtain ⟨resident, ha, hzero⟩ := handlePageFault_zero hw.toWF henv hc hbacking hf
      rcases meaning_of_set hi ha hm with hm | hm
      case inl => rw [habsent v hm] at hres; cases hres
      case inr =>
        obtain ⟨_, _, he'⟩ := MapArea.view_eq_some.mp hm
        rw [he'] at hres
        exact hzero _ page hnone hres

end MemorySet

end WllOs
