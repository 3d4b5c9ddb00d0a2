import WllOs.Mm.Theorems.PageFault

namespace WllOs

variable {area : MapArea} {env : Env} {n i addr : Nat} {page : ResidentPage}
variable {ms ms' : MemorySet} {frames frames' : Frames} {isStore isExec : Bool} {error : SysErrNo}
variable {fresh : Bool → Ppn → Prop} {cached : Ppn → Prop} {grant : Bool → Ppn → Prop}

namespace MemorySet

-- The frames that were handed out for the pages of one kind of areas.
def FreshFrom (kind : Bool) (frames frames' : Frames) (isPrivate : Bool) (frame : Ppn) : Prop :=
  isPrivate = kind ∧ Consumed frames frames' frame

-- What the resolution of a fault observes.
structure Resolution (cached : Ppn → Prop) (grant : Bool → Ppn → Prop)
    (ms : MemorySet) (frames : Frames) (ms' : MemorySet) (frames' : Frames) : Prop where
  step   : ∃ kind, Step (FreshFrom kind frames frames') cached grant ms ms'
  range  : ms'.areas.map MapArea.range = ms.areas.map MapArea.range
  supply : frames'.supply <:+ frames.supply

theorem Resolution.refl (ms : MemorySet) (frames : Frames) :
    Resolution cached grant ms frames ms frames :=
  ⟨⟨true, .refl ms⟩, rfl, List.suffix_refl _⟩

theorem Resolved.step_set {resident : ResidentSet} (hi : ms.areas[i]? = some area)
    (h : Resolved fresh cached grant ms ms' i area resident) : Step fresh cached grant ms ms' := by
  have hstep := Step.set hi fun _ => h.step
  rwa [← h.areas] at hstep

theorem Resolved.range {resident : ResidentSet} (hi : ms.areas[i]? = some area)
    (h : Resolved fresh cached grant ms ms' i area resident) :
    ms'.areas.map MapArea.range = ms.areas.map MapArea.range := by
  rw [h.areas, Lists.set_split hi]
  conv => rhs; rw [Lists.split_at hi]
  simp [MapArea.range]

theorem anonymousFault_error (ms : MemorySet) (area : MapArea) (n pageStart : Nat)
    (hs : frames.supply = []) :
    ∃ error, ms.anonymousFault frames area pageStart n = .error error := by
  have ⟨h₁, _⟩ := allocFrames_spec (anonymousWindow area pageStart n).2 frames
  simp only [anonymousFault, h₁, hs, List.take_nil, List.isEmpty_nil, if_true]
  exact ⟨_, rfl⟩

-- The fault makes a part of its window resident, which may not reach the page that faulted.
theorem anonymousFault_ok (cached : Ppn → Prop) (grant : Bool → Ppn → Prop)
    (hws : ∀ a ∈ ms.areas, a.WF)
    (hc : ms.areaContaining addr = some (i, area)) (hl : area.flags.hasLeafPermission)
    (hi : n = (alignDown addr - area.startVa) / pageSize) (hn : area.resident.lookup n = none)
    (hs : frames.supply ≠ []) :
    ∃ ms' frames' resident, ms.anonymousFault frames area (alignDown addr) n = .ok (ms', frames') ∧
    frames'.supply <:+ frames.supply ∧
    Resolved (FreshFrom area.backing.isPrivate frames frames') cached grant ms ms' i area resident ∧
    (n - (anonymousWindow area (alignDown addr) n).1 < frames.supply.length →
      ∃ page, page.state = .priv ∧ ms'.Published { area with resident } n page) ∧
    (frames.supply.length ≤ n - (anonymousWindow area (alignDown addr) n).1 →
      ms'.pageTable (area.startVa / pageSize + n) = ms.pageTable (area.startVa / pageSize + n)) := by
  have ⟨hget, hrange⟩ := areaContaining_sound hc
  have hw := hws area (areaContaining_mem hc)
  have hlt := hi ▸ hw.index_lt_pageCount hrange
  have hstart := (hw.alignDown_iff.mpr hrange).1
  have ⟨hw₁, hw₂, hw₃, hw₄⟩ := anonymousWindow_spec hw hlt hstart hi alignDown_mod hn
  have ⟨hrun, hrest⟩ := allocFrames_spec (anonymousWindow area (alignDown addr) n).2 frames
  have hc' := (areaContaining_alignDown hws addr).trans hc
  simp only [anonymousFault, hrun]
  generalize (anonymousWindow area (alignDown addr) n).1 = first at *
  generalize (anonymousWindow area (alignDown addr) n).2 = count at *
  have hpos : 0 < frames.supply.length := List.length_pos_iff.mpr hs
  have hlen : (frames.supply.take count).length = min count frames.supply.length := List.length_take
  have hne : frames.supply.take count ≠ [] := List.length_pos_iff.mp (by omega)
  have hempty : (frames.supply.take count).isEmpty = false := by simpa using hne
  have hused : frames.supply.take count ++ (allocFrames count frames).2.supply = frames.supply := by
    rw [hrest, List.take_append_drop]
  have hd : ∀ f ∈ frames.supply.take count,
      Derived [area] (FreshFrom area.backing.isPrivate frames (allocFrames count frames).2) cached grant
        area.backing.isPrivate area.flags ⟨f, .priv⟩ :=
    fun f hm => .inl ⟨rfl, _, hused, hm⟩
  have ⟨ms', resident, hinstall, hres, hpub, hkeep⟩ := installRun_resolved ms i hw hl hne
    (by omega) (fun j h₁ h₂ => hw₄ j h₁ (by omega)) (by simp) hd
  simp only [hempty, Bool.false_eq_true, if_false, hc', hinstall]
  refine ⟨ms', _, resident, rfl, ⟨_, hused⟩, hres, fun hb => ?_, fun hb => ?_⟩
  · exact hpub n hw₁ (by omega)
  · exact hkeep n (by omega)

theorem cleanCachePage_readonly {pageStart : Nat} {file : Nat × Nat}
    (h : cleanCachePage env area pageStart isStore = some file) : ¬isStore ∧ ¬area.flags.w := by
  simp only [cleanCachePage] at h
  split at h
  case isTrue hc => simpa using hc
  case isFalse => cases h

theorem cleanCacheFault_resolved (fresh grant : Bool → Ppn → Prop) {ino fileOffset : Nat}
    (hws : ∀ a ∈ ms.areas, a.WF)
    (henv : env.Lawful cached) (hc : ms.areaContaining addr = some (i, area))
    (hl : area.flags.hasLeafPermission) (hi : n = (alignDown addr - area.startVa) / pageSize)
    (hr : ¬area.flags.w)
    (h : cleanCacheFault env ms area (alignDown addr) n ino fileOffset = .ok ms') :
    ∃ resident, Resolved fresh cached grant ms ms' i area resident ∧
    ∃ page, page.state = .fileClean ∧ ms'.Published { area with resident } n page := by
  obtain ⟨hget, hrange⟩ := areaContaining_sound hc
  have hw := hws area (areaContaining_mem hc)
  have hend : (area.endVa - alignDown addr) / pageSize ≤ area.pageCount - n := by
    have := hw.start_aligned
    have := hw.end_aligned
    simp only [MapArea.pageCount, MapArea.size, alignDown, pageSize] at *
    omega
  have hlt := hi ▸ hw.index_lt_pageCount hrange
  obtain ⟨hf₁, hf₂⟩ := forwardPages_spec area.resident n
    (min ((area.endVa - alignDown addr) / pageSize) cleanFileFaultWindowPages)
  have hc' := (areaContaining_alignDown hws addr).trans hc
  simp only [cleanCacheFault] at h
  generalize forwardPages area.resident n
    (min ((area.endVa - alignDown addr) / pageSize) cleanFileFaultWindowPages) = count at *
  split at h
  case isTrue => cases h
  case isFalse hcount =>
    split at h
    case h_1 => cases h
    case h_2 run hrun =>
      obtain ⟨hlen, hcached⟩ := henv.cache _ _ _ _ _ hrun
      split at h
      case isTrue => cases h
      case isFalse hne =>
        have hne : run ≠ [] := by simpa using hne
        have hpos := List.length_pos_iff.mpr hne
        have hd : ∀ f ∈ run,
            Derived [area] fresh cached grant area.backing.isPrivate area.flags ⟨f, .fileClean⟩ :=
          fun f hm => .inr (.inl ⟨hcached f hm, fun hx => absurd hx.1 hr⟩)
        obtain ⟨ms'', resident, hinstall, hres, hpub, _⟩ := installRun_resolved (n := n) ms i hw hl hne
          (by omega) (fun j h₁ h₂ => by
            have := hf₂ (j - n) (by omega)
            rwa [show n + (j - n) = j by omega] at this) (by simp) hd
        simp only [hc', hinstall] at h
        cases h
        exact ⟨resident, hres, hpub n (le_refl n) (by omega)⟩

theorem backingPageState_ne_cow (backing : MapAreaBacking) : backingPageState backing ≠ .cow := by
  unfold backingPageState
  split <;> simp

theorem backingFault_resolved (cached : Ppn → Prop) (grant : Bool → Ppn → Prop)
    (hws : ∀ a ∈ ms.areas, a.WF)
    (hc : ms.areaContaining addr = some (i, area)) (hl : area.flags.hasLeafPermission)
    (hi : n = (alignDown addr - area.startVa) / pageSize) (hn : area.resident.lookup n = none)
    (h : backingFault env ms frames (alignDown addr) n = .ok (ms', frames')) :
    frames'.supply <:+ frames.supply ∧
    ∃ resident, Resolved (FreshFrom area.backing.isPrivate frames frames') cached grant ms ms' i area resident ∧
    ∃ page, page.state ≠ .cow ∧ ms'.Published { area with resident } n page := by
  have ⟨hget, hrange⟩ := areaContaining_sound hc
  have hw := hws area (areaContaining_mem hc)
  have hlt := hi ▸ hw.index_lt_pageCount hrange
  simp only [backingFault, areaContaining_alignDown hws, hc, hn, Option.isSome_none,
    Bool.false_eq_true, if_false] at h
  split at h
  case h_1 => cases h
  case h_2 frame frames₁ halloc =>
    have ⟨hused, hsuf⟩ := allocFrame_consumed halloc
    split at h
    case h_1 => cases h
    case h_2 =>
      have hstate := backingPageState_ne_cow area.backing
      have ⟨resident, hins, hw₁, hres⟩ := MapArea.insertResidentPage_ok frame
        (backingPageState area.backing) hw hlt hn (by simp [hstate])
      rw [hins] at h
      cases h
      have hd : Derived [area] (FreshFrom area.backing.isPrivate frames frames₁) cached grant
        area.backing.isPrivate area.flags ⟨frame, backingPageState area.backing⟩ := .inl ⟨rfl, hused⟩
      have ⟨hr, hp⟩ := setAndMapPage_resolved (n := n) ms i hl hw₁ (by simp [hres])
        (fun m hm => by simp [hres, hm]) hd
      exact ⟨hsuf, resident, hr, _, hstate, hp⟩

-- A fault is resolved in one of two ways: the page is mapped already and nothing changes, or pages of
-- the area become resident and are published. The page that faulted is one of these unless its window
-- is starved, and it is copied before a store if the area is marked as copy-on-write.
theorem handlePageFault_ok (grant : Bool → Ppn → Prop) (hws : ∀ a ∈ ms.areas, a.WF) (henv : env.Lawful cached)
    (h : handlePageFault env ms frames addr isStore isExec = .ok (ms', frames')) :
    frames'.supply <:+ frames.supply ∧
    ∃ i area, ms.areaContaining addr = some (i, area) ∧
    accessAllowed area.flags isStore isExec ∧
    (ms' = ms ∧ (ms.translate addr).isSome ∧ ¬(isStore ∧ area.flags.cow) ∨
    ∃ resident,
      Resolved (FreshFrom area.backing.isPrivate frames frames') cached grant ms ms' i area resident ∧
      (¬starvedWindow frames area addr → ∃ page,
        ms'.Published { area with resident } ((alignDown addr - area.startVa) / pageSize) page ∧
        (page.state = .cow → ¬(isStore ∧ area.flags.cow) ∧
          area.resident.lookup ((alignDown addr - area.startVa) / pageSize) = some page))) := by
  simp only [handlePageFault] at h
  split at h
  case h_1 => cases h
  case h_2 i area hc =>
    have ⟨hget, hrange⟩ := areaContaining_sound hc
    have hw := hws area (areaContaining_mem hc)
    split at h
    case isTrue => cases h
    case isFalse hallow =>
      have ⟨hl, hallow⟩ : area.flags.hasLeafPermission ∧ accessAllowed area.flags isStore isExec := by
        simpa using hallow
      split at h
      case isTrue hcow =>
        have hc' := (areaContaining_alignDown hws addr).trans hc
        have hf : ∀ f, Consumed frames frames' f →
          FreshFrom area.backing.isPrivate frames frames' area.backing.isPrivate f := fun f hu => ⟨rfl, hu⟩
        have ⟨_, hsuf, resident, frame, hres, hpub⟩ := resolveCowPage_resolved cached grant hw hc'
          (alignDown_eq alignDown_mod) (fun _ page _ => henv.refCount_pos page.frame) hf h
        exact ⟨hsuf, i, area, hc, hallow, .inr ⟨resident, hres, fun _ => ⟨_, hpub, by simp⟩⟩⟩
      case isFalse hcow =>
        have hcow : ¬(isStore ∧ area.flags.cow) := by simpa using hcow
        split at h
        case isTrue ht =>
          cases h
          refine ⟨List.suffix_refl _, i, area, hc, hallow, .inl ⟨rfl, ?_, hcow⟩⟩
          simpa only [translate, alignDown_div] using ht
        case isFalse ht =>
          split at h
          case isTrue hsome =>
            have ⟨page, hpage⟩ := Option.isSome_iff_exists.mp hsome
            cases h
            have hd : Derived [area] (FreshFrom area.backing.isPrivate frames frames) cached grant
              area.backing.isPrivate area.flags page := .of_lookup hpage
            have ⟨hr, hp⟩ := setAndMapPage_resolved ms i hl hw hpage (fun _ _ => rfl) hd
            exact ⟨List.suffix_refl _, i, area, hc, hallow,
              .inr ⟨_, hr, fun _ => ⟨page, hp, fun _ => ⟨hcow, hpage⟩⟩⟩⟩
          case isFalse hnone =>
            have hnone : area.resident.lookup ((alignDown addr - area.startVa) / pageSize) = none := by
              simpa using hnone
            split at h
            case isTrue hanon =>
              have hs : frames.supply ≠ [] := fun hs => by
                have ⟨error, he⟩ := anonymousFault_error ms area
                  ((alignDown addr - area.startVa) / pageSize) (alignDown addr) hs
                rw [he] at h
                cases h
              have ⟨ms'', frames'', resident, he, hsuf, hres, hpub, _⟩ :=
                anonymousFault_ok cached grant hws hc hl rfl hnone hs
              rw [he] at h
              cases h
              refine ⟨hsuf, i, area, hc, hallow, .inr ⟨resident, hres, fun hstarved => ?_⟩⟩
              have ⟨page, hstate, hp⟩ := hpub (by
                simp only [starvedWindow] at hstarved
                simp_all)
              exact ⟨page, hp, by simp [hstate]⟩
            case isFalse =>
              split at h
              case h_1 file ino fileOffset hcache =>
                split at h
                case h_1 => cases h
                case h_2 ms'' hfault =>
                  cases h
                  have ⟨_, hr⟩ := cleanCachePage_readonly hcache
                  have ⟨resident, hres, page, hstate, hp⟩ :=
                    cleanCacheFault_resolved
                      (FreshFrom area.backing.isPrivate frames frames) grant hws henv hc hl rfl hr hfault
                  exact ⟨List.suffix_refl _, i, area, hc, hallow,
                    .inr ⟨resident, hres, fun _ => ⟨page, hp, by simp [hstate]⟩⟩⟩
              case h_2 =>
                have ⟨hsuf, resident, hres, page, hstate, hp⟩ :=
                  backingFault_resolved cached grant hws hc hl rfl hnone h
                exact ⟨hsuf, i, area, hc, hallow,
                  .inr ⟨resident, hres, fun _ => ⟨page, hp, fun he => absurd he hstate⟩⟩⟩

theorem handlePageFault_resolution (hws : ∀ a ∈ ms.areas, a.WF) (henv : env.Lawful cached)
    (h : handlePageFault env ms frames addr isStore isExec = .ok (ms', frames')) :
    Resolution cached grant ms frames ms' frames' := by
  have ⟨hsuf, i, area, hc, _, hcases⟩ := handlePageFault_ok grant hws henv h
  rcases hcases with ⟨rfl, _⟩ | ⟨resident, hres, _⟩
  case inl => exact ⟨⟨true, .refl _⟩, rfl, hsuf⟩
  case inr =>
    have hi := (areaContaining_sound hc).1
    exact ⟨⟨_, hres.step_set hi⟩, hres.range hi, hsuf⟩

theorem ensurePageWritable_resolution {pageStart : Nat} (hws : ∀ a ∈ ms.areas, a.WF)
    (henv : env.Lawful cached) (ha : alignDown pageStart = pageStart)
    (h : ensurePageWritable env ms frames pageStart = .ok (ms', frames')) :
    Resolution cached grant ms frames ms' frames' := by
  simp only [ensurePageWritable] at h
  split at h
  case h_1 => cases h
  case h_2 i area hc =>
    split at h
    case isTrue => cases h
    case isFalse =>
      split at h
      case isTrue =>
        have hf : ∀ f, Consumed frames frames' f →
          FreshFrom area.backing.isPrivate frames frames' area.backing.isPrivate f := fun f hu => ⟨rfl, hu⟩
        have ⟨_, hsuf, resident, frame, hres, _⟩ := resolveCowPage_resolved cached grant
          (hws area (areaContaining_mem hc)) hc ha (fun _ page _ => henv.refCount_pos page.frame) hf h
        have hi := (areaContaining_sound hc).1
        exact ⟨⟨_, hres.step_set hi⟩, hres.range hi, hsuf⟩
      case isFalse =>
        split at h
        case isTrue => exact handlePageFault_resolution hws henv h
        case isFalse =>
          cases h
          exact .refl ms frames

-- The pages that are checked before the loop fails keep their new frames, so what every resolution keeps
-- holds of its result whether it succeeds or not.
theorem prepareWriteFrom_induction {P : MemorySet → Frames → Prop} (grant : Bool → Ppn → Prop)
    (env : Env) (dst len fuel checked : Nat) (henv : env.Lawful cached)
    (hw : ∀ ms frames, P ms frames → ∀ a ∈ ms.areas, a.WF)
    (hs : ∀ ms frames ms' frames', P ms frames → Resolution cached grant ms frames ms' frames' →
      P ms' frames')
    (h : P ms frames) :
    P (prepareWriteFrom env dst len fuel checked ms frames).1
      (prepareWriteFrom env dst len fuel checked ms frames).2.1 := by
  induction fuel generalizing checked ms frames
  case zero => exact h
  case succ fuel hi =>
    simp only [prepareWriteFrom]
    split
    case isFalse => exact h
    case isTrue =>
      split
      case h_1 => exact h
      case h_2 addr _ =>
        split
        case h_1 => exact h
        case h_2 ms₁ frames₁ he =>
          exact hi _ (hs ms frames ms₁ frames₁ h
            (ensurePageWritable_resolution (hw ms frames h) henv (alignDown_eq alignDown_mod) he))

end MemorySet

end WllOs
