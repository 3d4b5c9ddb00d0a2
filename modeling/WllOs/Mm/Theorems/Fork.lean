import WllOs.Mm.Theorems.Progress

namespace WllOs

variable {areas areas' : List MapArea} {area area' : MapArea} {pageTable pageTable' : PageTable}
variable {vpn n addr : Nat} {page : ResidentPage} {pte : Pte} {flags : PTEFlags} {error : SysErrNo}
variable {child child' : MemorySet} {frames frames' : Frames} {mem : Ppn → Page}
variable {fresh : Bool → Ppn → Prop} {cached : Ppn → Prop} {grant : Bool → Ppn → Prop}

namespace MemorySet

-- An area of the parent whose pages the child is going to share.
structure Marked (area area' : MapArea) (pageTable pageTable' : PageTable) : Prop where
  wf      : area'.WF
  range   : area'.range = area.range
  backing : area'.backing = area.backing
  policy  : area'.flags.withoutCow = area.flags.withoutCow
  cow     : area.flags.cow → area'.flags.cow
  pages   : ∃ state, ∀ n,
              area'.resident.lookup n = (area.resident.lookup n).map fun page => { page with state }
  hidden  : area.backing.isPrivate → ∀ n page, area'.resident.lookup n = some page →
              ¬Exposed true area'.flags page
  stale   : ∀ addr, ¬staleCowPage area' addr
  entries : ∀ vpn pte, pageTable' vpn = some pte →
              area'.Backs vpn pte ∨ (pageTable vpn = some pte ∧ ¬area.Backs vpn pte)

section

variable {flags' : PTEFlags} (h : flags'.withoutCow = flags.withoutCow)

include h

theorem withoutCow_r : flags'.r = flags.r :=
  show flags'.withoutCow.r = flags.withoutCow.r by rw [h]

theorem withoutCow_w : flags'.w = flags.w :=
  show flags'.withoutCow.w = flags.withoutCow.w by rw [h]

theorem withoutCow_x : flags'.x = flags.x :=
  show flags'.withoutCow.x = flags.withoutCow.x by rw [h]

theorem withoutCow_u : flags'.u = flags.u :=
  show flags'.withoutCow.u = flags.withoutCow.u by rw [h]

end

theorem Marked.areaStep (h : Marked area area' pageTable pageTable') :
    AreaStep fresh cached grant area area' pageTable pageTable' where
  wf     := h.wf
  user   := fun hu => (withoutCow_u h.policy).trans hu
  backed := h.entries
  derived n page hn := by
    have ⟨state, hp⟩ := h.pages
    rw [hp, Option.map_eq_some_iff] at hn
    obtain ⟨page', hn', rfl⟩ := hn
    rw [h.backing]
    refine .inr (.inr ⟨area.flags, page', ⟨area, by simp, rfl, rfl, n, hn'⟩, rfl, fun hx => ?_⟩)
    cases hb : area.backing.isPrivate
    case false => exact .inl ⟨withoutCow_w h.policy ▸ hx.1, by simp⟩
    case true =>
      rw [hb] at hx
      exact absurd hx (h.hidden hb n _ (by rw [hp, hn']; rfl))

theorem shared_lookup {state : PageState} : (area.setAllResidentState state).resident.lookup n =
    (area.resident.lookup n).map fun page => { page with state } :=
  ResidentSet.updateAll_lookup n

theorem not_stale_of_state {state : PageState} (hs : state ≠ .cow) (addr : Nat) :
    ¬staleCowPage (area.setAllResidentState state) addr := by
  simp only [staleCowPage, shared_lookup]
  cases area.resident.lookup ((addr - (area.setAllResidentState state).startVa) / pageSize) <;> simp [hs]

-- Pages that are not mapped with write permission can be marked as shared without a change of their
-- entries.
theorem marked_shared (hw : area.WF) (hr : area.backing.isPrivate → ¬area.flags.w) :
    Marked area (area.setAllResidentState .shared) pageTable pageTable where
  wf      := hw.setAllResidentState (by simp)
  range   := rfl
  backing := rfl
  policy  := rfl
  cow     := id
  pages   := ⟨_, fun _ => shared_lookup⟩
  hidden  := fun hp _ _ _ hx => hr hp hx.1
  stale   := not_stale_of_state (by simp)
  entries vpn pte he := by
    refine (Classical.em (area.Backs vpn pte)).imp ?_ fun hn => ⟨he, hn⟩
    rintro ⟨hl, page, hp, hpte⟩
    refine ⟨hl, _, by rw [setAllResidentState_pageAt, hp]; rfl, ?_⟩
    have hflags : effectiveMappingFlagsForPage area.flags { page with state := .shared } =
        effectiveMappingFlagsForPage area.flags page := by
      by_cases hc : page.state = .cow
      case neg => simp [effectiveMappingFlagsForPage, hc]
      case pos =>
        obtain ⟨n, _, hn⟩ := MapArea.pageAt_eq_some.mp hp
        have hnw := hr (hw.cow_private n page hn hc)
        simp [effectiveMappingFlagsForPage, MappingFlags.ofPTEFlags, hc, hnw]
    simp only [pteOf, MapArea.setAllResidentState, hflags]
    exact hpte

-- The entries of the parent are published anew without write permission, unless they all are already.
theorem marked_cow (hw : area.WF) (hp : area.backing.isPrivate) (hl : area.flags.hasLeafPermission)
    {area' : MapArea}
    (ha : area' = { area.setAllResidentState .cow with flags := { area.flags with cow := true } })
    (hpt : pageTable' =
      if !area.flags.cow || area.resident.iter.any (·.state ≠ .cow) then
        remapAreaPages pageTable area' area.flags
      else pageTable) :
    Marked area area' pageTable pageTable' := by
  have hw' : area'.WF := ha ▸ (hw.setAllResidentState fun _ => hp).setFlags _
  have hl' : area'.flags.hasLeafPermission := by rw [ha]; exact hl
  have hlookup : ∀ n, area'.resident.lookup n =
      (area.resident.lookup n).map fun page => { page with state := .cow } := fun n => by
    rw [ha]
    exact shared_lookup
  have hpage : ∀ vpn, area'.pageAt vpn =
      (area.pageAt vpn).map fun page => { page with state := .cow } := fun vpn => by
    rw [← setAllResidentState_pageAt, ha]
    rfl
  refine ⟨hw', by rw [ha]; rfl, by rw [ha]; rfl, by rw [ha]; rfl, by simp [ha], ⟨_, hlookup⟩, fun _ n page hn hx => ?_,
    fun addr => by simp [staleCowPage, ha], fun vpn pte he => ?_⟩
  case refine_1 =>
    rw [hlookup, Option.map_eq_some_iff] at hn
    obtain ⟨_, _, hn⟩ := hn
    exact hx.2 rfl (by rw [← hn])
  case refine_2 =>
    split at hpt
    case isTrue =>
      rw [hpt, remapAreaPages_apply hw' hl'] at he
      cases hpa : area'.pageAt vpn
      case some page =>
        rw [hpa] at he
        exact .inl ⟨hl', page, hpa, he⟩
      case none =>
        rw [hpa] at he
        refine .inr ⟨he, MapArea.not_backs_of_none ?_⟩
        rw [hpage] at hpa
        exact Option.map_eq_none_iff.mp hpa
    case isFalse hc =>
      -- The area is marked already, and all of its pages are.
      simp only [Bool.or_eq_true, Bool.not_eq_true', List.any_eq_true, not_or, Bool.not_eq_false,
        not_exists, not_and, decide_eq_true_eq, ne_eq, not_not] at hc
      have hsame : ∀ page, area.pageAt vpn = some page → page.state = .cow := fun page hpa => by
        obtain ⟨n, _, hn⟩ := MapArea.pageAt_eq_some.mp hpa
        exact hc.2 page (hw.resident.mem_iter.mpr ⟨n, hn⟩)
      refine (Classical.em (area.Backs vpn pte)).imp ?_ fun hn => ⟨hpt ▸ he, hn⟩
      rintro ⟨_, page, hpa, hpte⟩
      refine ⟨hl', page, ?_, ?_⟩
      · rw [hpage, hpa, Option.map_some, ← hsame page hpa]
      · have hf : area'.flags = area.flags := by rw [ha, ← hc.1]
        rwa [hf]

-- An area is either shared with the child or copied. It is copied only if none of its pages is mapped.
theorem forkArea_cases (hw : area.WF) (pageTable : PageTable) (frames : Frames) (child : MemorySet) :
    (∃ area' pageTable', Marked area area' pageTable pageTable' ∧
      forkArea area pageTable frames child = ⟨area', pageTable', frames,
        .ok ⟨mapAreaPages child.pageTable area', child.areas ++ [area']⟩⟩) ∨
    area.backing.isPrivate ∧ (area.hasFrames → ¬area.flags.hasLeafPermission) ∧
      forkArea area pageTable frames child =
        match copyPages area.flags (area.resident.iterRange 0 area.pageCount)
          (.withBacking area.startVa area.endVa area.flags area.backing) child.pageTable frames with
        | (frames, .error error) => ⟨area, pageTable, frames, .error error⟩
        | (frames, .ok (newArea, childTable)) =>
          ⟨area, pageTable, frames, .ok ⟨childTable, child.areas ++ [newArea]⟩⟩ := by
  by_cases hs : isSharedMapping area
  case pos =>
    have hp := isSharedMapping_iff.mp hs
    exact .inl ⟨_, _, marked_shared hw fun h => absurd h hp, by simp only [forkArea, hs, if_true]; rfl⟩
  case neg =>
    have hp : area.backing.isPrivate := by
      by_contra hp
      exact hs (isSharedMapping_iff.mpr hp)
    by_cases hc : isPrivateCowCandidate area
    case pos =>
      have hl : area.flags.hasLeafPermission := by
        simp only [isPrivateCowCandidate, Bool.and_eq_true] at hc
        exact hc.2
      refine .inl ⟨_, _, marked_cow hw hp hl rfl rfl, ?_⟩
      simp only [forkArea, hs, hc, if_true, Bool.false_eq_true, if_false]
      rfl
    case neg =>
      by_cases hr : isReadonlyShareCandidate area
      case pos =>
        have hnw : ¬area.flags.w := by
          simp only [isReadonlyShareCandidate, Bool.and_eq_true] at hr
          simpa using hr.1.2
        refine .inl ⟨_, _, marked_shared hw fun _ => hnw, ?_⟩
        simp only [forkArea, hs, hc, hr, if_true, Bool.false_eq_true, if_false]
        rfl
      case neg =>
        refine .inr ⟨hp, fun hf hl => ?_, ?_⟩
        case refine_1 =>
          cases hb : area.backing <;>
            simp_all [isPrivateCowCandidate, isReadonlyShareCandidate, MapAreaBacking.isPrivate]
        case refine_2 =>
          simp only [forkArea, hs, hc, hr, Bool.false_eq_true, if_false] <;> rfl

-- The copies of resident pages hold the contents of these pages, provided that the allocator hands out
-- every frame once and none of the frames of these pages.
theorem copyPages_spec {entries : List (Nat × ResidentPage)} (hw : area.WF)
    (hn : (entries.map (·.1)).Nodup) (hi : ∀ e ∈ entries, e.1 < area.pageCount)
    (hf : ∀ e ∈ entries, area.resident.lookup e.1 = none) (hl : entries ≠ [] → ¬flags.hasLeafPermission)
    {result : Except SysErrNo (MapArea × PageTable)}
    (h : copyPages flags entries area pageTable frames = (frames', result)) :
    frames'.supply <:+ frames.supply ∧
    (∀ f, f ∉ frames.supply → frames'.mem f = frames.mem f) ∧
    ∀ area' pageTable', result = .ok (area', pageTable') → pageTable' = pageTable ∧
      ∃ resident, area' = { area with resident } ∧ area'.WF ∧
      (∀ m, m ∉ entries.map (·.1) → resident.lookup m = area.resident.lookup m) ∧
      ∀ e ∈ entries, ∃ f ∈ frames.supply, resident.lookup e.1 = some ⟨f, .priv⟩ ∧
        (frames.supply.Nodup → (∀ e ∈ entries, e.2.frame ∉ frames.supply) →
          f ∉ frames'.supply ∧ frames'.mem f = frames.mem e.2.frame) := by
  induction entries generalizing area frames
  case nil =>
    cases h
    refine ⟨List.suffix_refl _, fun _ _ => rfl, fun area' pageTable' he => ?_⟩
    cases he
    exact ⟨rfl, area.resident, rfl, hw, fun _ _ => rfl, by simp⟩
  case cons e rest ih =>
    obtain ⟨idx, src⟩ := e
    have ⟨hidx, hnr⟩ := List.nodup_cons.mp hn
    have hleaf := hl (by simp)
    simp only [copyPages] at h
    split at h
    case h_1 =>
      cases h
      exact ⟨List.suffix_refl _, fun _ _ => rfl, fun _ _ he => nomatch he⟩
    case h_2 frame frames₁ ha =>
      have ⟨hsup, hmem⟩ := Frames.allocFrame_eq_some ha
      have ⟨resident, hins, hw₁, hres⟩ := MapArea.insertResidentPage_ok frame .priv hw
        (hi (idx, src) (by simp)) (hf (idx, src) (by simp)) (by simp)
      rw [hins] at h
      simp only [hleaf, Bool.false_eq_true, if_false] at h
      have hmem₂ : ∀ f, f ≠ frame → (frames₁.copy src.frame frame).mem f = frames.mem f :=
        fun f hne => by simp [Frames.copy, hmem, hne]
      have hcopy : src.frame ≠ frame →
          (frames₁.copy src.frame frame).mem frame = frames.mem src.frame :=
        fun hne => by simp [Frames.copy, hmem, hne]
      have hsup₂ : frames.supply = frame :: (frames₁.copy src.frame frame).supply := hsup
      generalize frames₁.copy src.frame frame = frames₂ at h hmem₂ hcopy hsup₂
      have hframe : frame ∈ frames.supply := by simp [hsup₂]
      have hsub : ∀ f ∈ frames₂.supply, f ∈ frames.supply := fun f hf => by simp [hsup₂, hf]
      have ⟨hsuf, hkeep, hok⟩ := ih hw₁ hnr (fun e he => hi e (by simp [he]))
        (fun e he => by
          rw [hres, if_neg fun heq => hidx (List.mem_map.mpr ⟨e, he, heq⟩)]
          exact hf e (by simp [he]))
        (fun _ => hleaf) h
      refine ⟨hsup₂ ▸ hsuf.trans (List.suffix_cons ..), fun f hff => ?_, fun area' pageTable' he => ?_⟩
      case refine_1 =>
        rw [hkeep f fun hc => hff (hsub f hc)]
        exact hmem₂ f fun hc => hff (hc ▸ hframe)
      case refine_2 =>
        have ⟨hpt, resident', hr', hw', hother, hcopied⟩ := hok area' pageTable' he
        refine ⟨hpt, resident', hr', hw', fun m hm => ?_, fun e he => ?_⟩
        case refine_1 =>
          have ⟨hm₁, hm₂⟩ : m ≠ idx ∧ m ∉ rest.map (·.1) := by simpa using hm
          rw [hother m hm₂]
          exact (hres m).trans (if_neg hm₁)
        case refine_2 =>
          rcases List.mem_cons.mp he with rfl | he
          case inl =>
            refine ⟨frame, hframe, ?_, fun hs hsrc => ?_⟩
            · rw [hother idx hidx]
              exact (hres idx).trans (if_pos rfl)
            · have ⟨hfr, _⟩ := List.nodup_cons.mp (hsup₂ ▸ hs)
              refine ⟨fun hc => hfr (hsuf.subset hc), (hkeep frame hfr).trans (hcopy fun hc => ?_)⟩
              exact hsrc (idx, src) (by simp) (hc ▸ hframe)
          case inr =>
            have ⟨f, hfs, hlk, hm⟩ := hcopied e he
            refine ⟨f, hsub f hfs, hlk, fun hs hsrc => ?_⟩
            have ⟨_, hs₂⟩ := List.nodup_cons.mp (hsup₂ ▸ hs)
            have ⟨hf', hm⟩ := hm hs₂ fun e he hc => hsrc e (by simp [he]) (hsub _ hc)
            refine ⟨hf', hm.trans (hmem₂ _ fun hc => ?_)⟩
            exact hsrc e (by simp [he]) (hc ▸ hframe)

-- What the parent keeps of an area.
structure ParentArea (area area' : MapArea) : Prop where
  range   : area'.range = area.range
  backing : area'.backing = area.backing
  policy  : area'.flags.withoutCow = area.flags.withoutCow
  cow     : area.flags.cow → area'.flags.cow
  frames  : ∀ n, (area'.resident.lookup n).map (·.frame) = (area.resident.lookup n).map (·.frame)
  stale   : ∀ addr, staleCowPage area' addr → staleCowPage area addr

-- The area that the child gets. A page of it has the frame of the page of the parent or is a copy.
structure ChildArea (frames frames' : Frames) (area area' : MapArea) : Prop where
  wf      : area'.WF
  range   : area'.range = area.range
  backing : area'.backing = area.backing
  policy  : area'.flags.withoutCow = area.flags.withoutCow
  hidden  : area.backing.isPrivate → ∀ n page, area'.resident.lookup n = some page →
              ¬Exposed true area'.flags page
  missing : ∀ n, area.resident.lookup n = none → area'.resident.lookup n = none
  pages   : ∀ n page, area.resident.lookup n = some page →
              ∃ page', area'.resident.lookup n = some page' ∧
              (page'.frame = page.frame ∨
                area.backing.isPrivate ∧ page'.frame ∈ frames.supply ∧
                (frames.supply.Nodup →
                  (∀ n page, area.resident.lookup n = some page → page.frame ∉ frames.supply) →
                  page'.frame ∉ frames'.supply ∧ frames'.mem page'.frame = frames.mem page.frame))

structure ForkedArea (fresh : Bool → Ppn → Prop) (cached : Ppn → Prop) (grant : Bool → Ppn → Prop)
    (area : MapArea) (pageTable : PageTable) (frames : Frames) (child : MemorySet) (forked : Forked) :
    Prop where
  step   : AreaStep fresh cached grant area forked.area pageTable forked.pageTable
  parent : ParentArea area forked.area
  hidden : area.backing.isPrivate → ∀ n page, forked.area.resident.lookup n = some page →
            ¬Exposed true forked.area.flags page
  supply : forked.frames.supply <:+ frames.supply
  mem    : ∀ f, f ∉ frames.supply → forked.frames.mem f = frames.mem f
  child  : ∀ child', forked.child = .ok child' →
            ∃ area', child'.areas = child.areas ++ [area'] ∧ ChildArea frames forked.frames area area' ∧
            ∀ vpn pte, child'.pageTable vpn = some pte →
              area'.Backs vpn pte ∨ child.pageTable vpn = some pte

theorem ParentArea.refl (area : MapArea) : ParentArea area area :=
  ⟨rfl, rfl, rfl, id, fun _ => rfl, fun _ => id⟩

theorem Marked.parentArea (h : Marked area area' pageTable pageTable') : ParentArea area area' where
  range   := h.range
  backing := h.backing
  policy  := h.policy
  cow     := h.cow
  frames n := by
    have ⟨state, hp⟩ := h.pages
    rw [hp, Option.map_map]
    rfl
  stale addr hs := absurd hs (h.stale addr)

theorem Marked.childArea (h : Marked area area' pageTable pageTable') :
    ChildArea frames frames' area area' where
  wf      := h.wf
  range   := h.range
  backing := h.backing
  policy  := h.policy
  hidden  := h.hidden
  missing n hn := by
    have ⟨state, hp⟩ := h.pages
    rw [hp, hn]
    rfl
  pages n page hn := by
    have ⟨state, hp⟩ := h.pages
    exact ⟨{ page with state }, by rw [hp, hn]; rfl, .inl rfl⟩

theorem mapAreaPages_entries (hw : area.WF) (h : mapAreaPages pageTable area vpn = some pte) :
    area.Backs vpn pte ∨ pageTable vpn = some pte := by
  by_cases hl : area.flags.hasLeafPermission
  case pos => exact mapAreaPages_backed hw hl h
  case neg => exact .inr (by simpa [mapAreaPages, hl] using h)

theorem copied_hidden (hw : area.WF) (hl : area.hasFrames → ¬area.flags.hasLeafPermission)
    (hn : area.resident.lookup n = some page) : ¬area.flags.w := by
  intro hx
  refine hl ?_ (by simp [PTEFlags.hasLeafPermission, hx])
  by_contra hf
  have := hw.pageAt_eq_none (area.startVa / pageSize + n) hf
  rw [MapArea.pageAt_add, hn] at this
  cases this

theorem forkArea_spec (hw : area.WF) (pageTable : PageTable) (frames : Frames) (child : MemorySet) :
    ForkedArea fresh cached grant area pageTable frames child
      (forkArea area pageTable frames child) := by
  rcases forkArea_cases hw pageTable frames child with
    ⟨area', pageTable', hm, heq⟩ | ⟨hp, hl, heq⟩
  case inl =>
    rw [heq]
    refine ⟨hm.areaStep, hm.parentArea, hm.hidden, List.suffix_refl _, fun _ _ => rfl,
      fun child' hok => ?_⟩
    cases hok
    exact ⟨area', rfl, hm.childArea, fun vpn pte => mapAreaPages_entries hm.wf⟩
  case inr =>
    have hwn : (MapArea.withBacking area.startVa area.endVa area.flags area.backing).WF :=
      .withBacking hw.start_aligned hw.end_aligned hw.start_lt_end hw.end_le_max
    have hentry : ∀ e ∈ area.resident.iterRange 0 area.pageCount, area.resident.lookup e.1 = some e.2 :=
      fun e he => ((ResidentSet.mem_iterRange hw.resident).mp he).2.2
    have hne : area.resident.iterRange 0 area.pageCount ≠ [] → ¬area.flags.hasLeafPermission := by
      intro hne
      obtain ⟨e, he⟩ := List.exists_mem_of_ne_nil _ hne
      refine hl ?_
      by_contra hf
      have := hw.pageAt_eq_none (area.startVa / pageSize + e.1) hf
      rw [MapArea.pageAt_add, hentry e he] at this
      cases this
    have hparent : ParentArea area area := .refl area
    have hhidden : ∀ n page, area.resident.lookup n = some page → ¬Exposed true area.flags page :=
      fun n page hn hx => copied_hidden hw hl hn hx.1
    generalize hcopy : copyPages area.flags (area.resident.iterRange 0 area.pageCount)
      (.withBacking area.startVa area.endVa area.flags area.backing) child.pageTable frames = result
      at heq
    obtain ⟨frames', result⟩ := result
    obtain ⟨hsuf, hmem, hok⟩ := copyPages_spec hwn (ResidentSet.iterRange_nodup hw.resident)
      (fun e he => ((ResidentSet.mem_iterRange hw.resident).mp he).2.1)
      (fun _ _ => by simp [MapArea.withBacking]) hne hcopy
    cases result
    case error error =>
      rw [heq]
      exact ⟨.refl hw, hparent, fun _ => hhidden, hsuf, hmem, fun _ he => by cases he⟩
    case ok result =>
      obtain ⟨newArea, childTable⟩ := result
      rw [heq]
      refine ⟨.refl hw, hparent, fun _ => hhidden, hsuf, hmem, fun child' hc => ?_⟩
      cases hc
      obtain ⟨hpt, resident, hr, hw', hother, hcopied⟩ := hok newArea childTable rfl
      subst hpt hr
      have hmiss : ∀ n, area.resident.lookup n = none → resident.lookup n = none := fun n hn => by
        rw [hother n fun hm => ?_]
        · simp [MapArea.withBacking]
        · obtain ⟨e, he, hen⟩ := List.mem_map.mp hm
          have := hentry e he
          rw [hen, hn] at this
          cases this
      refine ⟨_, rfl, ⟨hw', rfl, rfl, rfl, fun _ n page hn hx => ?_, hmiss, fun n page hn => ?_⟩,
        fun _ _ he => .inr he⟩
      case refine_1 =>
        have hne : area.resident.lookup n ≠ none := fun hnone => by
          have := hn.symm.trans (hmiss n hnone)
          cases this
        obtain ⟨page', hn'⟩ := Option.ne_none_iff_exists'.mp hne
        exact copied_hidden hw hl hn' hx.1
      case refine_2 =>
        have hlt := hw.index_lt n (by simp [hn])
        have hm : (n, page) ∈ area.resident.iterRange 0 area.pageCount :=
          (ResidentSet.mem_iterRange hw.resident).mpr ⟨Nat.zero_le n, hlt, hn⟩
        obtain ⟨f, hf, hlk, hc⟩ := hcopied (n, page) hm
        exact ⟨⟨f, .priv⟩, hlk, .inr ⟨hp, hf, fun hs hsrc =>
          hc hs fun e he => hsrc e.1 e.2 (hentry e he)⟩⟩

-- Frames that are handed out later are not the ones of the child.
theorem ChildArea.later {frames₁ frames₂ : Frames} (h : ChildArea frames frames₁ area area')
    (hs : frames₂.supply <:+ frames₁.supply)
    (hm : ∀ f, f ∉ frames₁.supply → frames₂.mem f = frames₁.mem f) :
    ChildArea frames frames₂ area area' :=
  { h with
    pages := fun n page hn => by
      have ⟨page', hn', hp⟩ := h.pages n page hn
      refine ⟨page', hn', hp.imp_right fun ⟨hb, hf, hc⟩ => ⟨hb, hf, fun hnd hsrc => ?_⟩⟩
      have ⟨h₁, h₂⟩ := hc hnd hsrc
      exact ⟨fun hf => h₁ (hs.subset hf), (hm _ h₁).trans h₂⟩ }

-- Frames that were handed out earlier are not the ones of the parent.
theorem ChildArea.earlier {frames₁ frames₂ : Frames} (h : ChildArea frames₁ frames₂ area area')
    (hs : frames₁.supply <:+ frames.supply)
    (hm : ∀ f, f ∉ frames.supply → frames₁.mem f = frames.mem f) :
    ChildArea frames frames₂ area area' :=
  { h with
    pages := fun n page hn => by
      have ⟨page', hn', hp⟩ := h.pages n page hn
      refine ⟨page', hn', hp.imp_right fun ⟨hb, hf, hc⟩ => ⟨hb, hs.subset hf, fun hnd hsrc => ?_⟩⟩
      have ⟨h₁, h₂⟩ := hc (hnd.sublist hs.sublist) fun n page hn hf => hsrc n page hn (hs.subset hf)
      exact ⟨h₁, h₂.trans (hm _ (hsrc n page hn))⟩ }

structure ForkedAreas (fresh : Bool → Ppn → Prop) (cached : Ppn → Prop) (grant : Bool → Ppn → Prop)
    (areas : List MapArea) (pageTable : PageTable) (frames : Frames) (child : MemorySet)
    (areas' : List MapArea) (pageTable' : PageTable) (frames' : Frames)
    (result : Except SysErrNo MemorySet) : Prop where
  step   : ∀ pre, Step fresh cached grant ⟨pageTable, pre ++ areas⟩ ⟨pageTable', pre ++ areas'⟩
  parent : List.Forall₂ ParentArea areas areas'
  supply : frames'.supply <:+ frames.supply
  mem    : ∀ f, f ∉ frames.supply → frames'.mem f = frames.mem f
  hidden : ∀ child', result = .ok child' → ∀ flags page, Owns areas' true flags page →
            ¬Exposed true flags page
  child  : ∀ child', result = .ok child' →
            ∃ new, child'.areas = child.areas ++ new ∧ List.Forall₂ (ChildArea frames frames') areas new ∧
            ∀ vpn pte, child'.pageTable vpn = some pte →
              (∃ a ∈ new, a.Backs vpn pte) ∨ child.pageTable vpn = some pte

theorem forkAreas_spec (hw : ∀ a ∈ areas, a.WF) (pageTable : PageTable) (frames : Frames)
    (child : MemorySet) :
    ForkedAreas fresh cached grant areas pageTable frames child
      (forkAreas areas pageTable frames child).1 (forkAreas areas pageTable frames child).2.1
      (forkAreas areas pageTable frames child).2.2.1
      (forkAreas areas pageTable frames child).2.2.2 := by
  induction areas generalizing pageTable frames child
  case nil =>
    refine ⟨fun _ => .refl _, .nil, List.suffix_refl _, fun _ _ => rfl, fun _ _ _ _ ho => ?_,
      fun child' hc => ?_⟩
    · simp [Owns, forkAreas] at ho
    · cases hc
      exact ⟨[], by simp, .nil, fun _ _ he => .inr he⟩
  case cons area rest ih =>
    obtain ⟨hwa, hwr⟩ := List.forall_mem_cons.mp hw
    have h₁ : ForkedArea fresh cached grant area pageTable frames child _ :=
      forkArea_spec hwa pageTable frames child
    simp only [forkAreas]
    generalize forkArea area pageTable frames child = forked at h₁
    have hstep : ∀ pre, Step fresh cached grant ⟨pageTable, pre ++ area :: rest⟩
        ⟨forked.pageTable, pre ++ forked.area :: rest⟩ := fun pre => AreaStep.step (fun _ => h₁.step) pre rest
    split
    case h_1 error he =>
      exact ⟨hstep, .cons h₁.parent (List.forall₂_same.mpr fun a _ => .refl a), h₁.supply, h₁.mem,
        (fun _ hc => by cases hc), fun _ hc => by cases hc⟩
    case h_2 child₁ he =>
      have h₂ := ih hwr forked.pageTable forked.frames child₁
      generalize forkAreas rest forked.pageTable forked.frames child₁ = result at h₂
      obtain ⟨areas', pageTable', frames', result⟩ := result
      obtain ⟨area', hca, hchild, hentries⟩ := h₁.child child₁ he
      refine ⟨fun pre => (hstep pre).trans ?_, .cons h₁.parent h₂.parent, h₂.supply.trans h₁.supply,
        fun f hf => ?_, fun child' hc flags page ho => ?_, fun child' hc => ?_⟩
      case refine_1 =>
        have := h₂.step (pre ++ [forked.area])
        simpa only [List.append_assoc, List.singleton_append] using this
      case refine_2 => exact (h₂.mem f fun hc => hf (h₁.supply.subset hc)).trans (h₁.mem f hf)
      case refine_3 =>
        rcases Owns.cons.mp ho with ⟨hb, rfl, n, hn⟩ | ho
        case inl => exact h₁.hidden (h₁.parent.backing ▸ hb) n page hn
        case inr => exact h₂.hidden child' hc flags page ho
      case refine_4 =>
        obtain ⟨new, hnew, hforall, hents⟩ := h₂.child child' hc
        refine ⟨area' :: new, by simp [hnew, hca], .cons (hchild.later h₂.supply h₂.mem) ?_,
          fun vpn pte hpte => ?_⟩
        case refine_1 => exact hforall.imp fun _ _ h => h.earlier h₁.supply h₁.mem
        case refine_2 =>
          rcases hents vpn pte hpte with ⟨a, ha, hb⟩ | hold
          case inl => exact .inl ⟨a, by simp [ha], hb⟩
          case inr => exact (hentries vpn pte hold).imp_left fun hb => ⟨area', by simp, hb⟩

end MemorySet

end WllOs
