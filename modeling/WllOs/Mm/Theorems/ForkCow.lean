import WllOs.Mm.Theorems.Fork
import WllOs.Mm.Theorems.Meaning

namespace WllOs

variable {areas : List MapArea} {area area' : MapArea} {vpn n addr : Nat} {page : ResidentPage}
variable {flags : PTEFlags} {ms ms' child : MemorySet} {frames frames' : Frames} {isPrivate : Bool}
variable {mem mem' : Ppn → Page} {env : Env} {access : Access}
variable {fresh : Bool → Ppn → Prop} {cached : Ppn → Prop} {grant : Bool → Ppn → Prop}

namespace MemorySet

-- Areas with the same ranges and backings have the same images as long as their pages have the same
-- contents.
theorem view_image (hr : area'.range = area.range) (hb : area'.backing = area.backing)
    (hf : area'.flags.withoutCow = area.flags.withoutCow)
    (hp : ∀ n, (area'.resident.lookup n).map (mem' ·.frame) = (area.resident.lookup n).map (mem ·.frame))
    (vpn : Nat) :
    ((area'.view vpn).map fun view =>
      (view.flags.withoutCow, view.backing, view.page.map (mem' ·.frame))) =
    (area.view vpn).map fun view =>
      (view.flags.withoutCow, view.backing, view.page.map (mem ·.frame)) := by
  have ⟨hs, he⟩ : area'.startVa = area.startVa ∧ area'.endVa = area.endVa := by
    simpa [MapArea.range] using hr
  simp only [MapArea.view, hs, he, hb]
  split
  case isTrue => simp [hf, hp]
  case isFalse => rfl

-- The frames of the allocator are handed out once and belong to no page of the memory set.
structure Unowned (frames : Frames) (areas : List MapArea) : Prop where
  nodup   : frames.supply.Nodup
  unowned : ∀ a ∈ areas, ∀ n page, a.resident.lookup n = some page → page.frame ∉ frames.supply

theorem ParentArea.pages (h : ParentArea area area')
    (hm : ∀ n page, area.resident.lookup n = some page → mem' page.frame = mem page.frame) (n : Nat) :
    (area'.resident.lookup n).map (mem' ·.frame) = (area.resident.lookup n).map (mem ·.frame) := by
  have hf := congrArg (Option.map mem') (h.frames n)
  rw [Option.map_map, Option.map_map] at hf
  refine hf.trans ?_
  cases hn : area.resident.lookup n
  case none => rfl
  case some page => simp [hm n page hn]

theorem ChildArea.contents (h : ChildArea frames frames' area area') (hs : frames.supply.Nodup)
    (hu : ∀ n page, area.resident.lookup n = some page → page.frame ∉ frames.supply)
    (hm : ∀ f, f ∉ frames.supply → frames'.mem f = frames.mem f) (n : Nat) :
    (area'.resident.lookup n).map (frames'.mem ·.frame) =
    (area.resident.lookup n).map (frames.mem ·.frame) := by
  cases hn : area.resident.lookup n
  case none => rw [h.missing n hn]; rfl
  case some page =>
    have ⟨page', hn', hp⟩ := h.pages n page hn
    rw [hn']
    rcases hp with hp | ⟨_, _, hc⟩
    case inl => simp [hp, hm _ (hu n page hn)]
    case inr => simp [(hc hs hu).2]

theorem forkCow_step (frames : Frames) (hw : ∀ a ∈ ms.areas, a.WF) :
    Step fresh cached grant ms (ms.forkCow frames).1 :=
  (forkAreas_spec hw ms.pageTable frames newBare).step []

-- What `fork_cow` does to the parent, whether it succeeds or not, and what the child gets if it does.
structure ForkedCow (ms : MemorySet) (frames : Frames) (ms' : MemorySet) (frames' : Frames)
    (result : Except SysErrNo MemorySet) : Prop where
  parent : List.Forall₂ ParentArea ms.areas ms'.areas
  supply : ∀ f ∈ frames'.supply, f ∈ frames.supply
  mem    : ∀ f, f ∉ frames.supply → frames'.mem f = frames.mem f
  hidden : ∀ child, result = .ok child → ∀ flags page, Owns ms'.areas true flags page →
            ¬Exposed true flags page
  child  : ∀ child, result = .ok child → ∃ new : MemorySet, child = new.coalesceAreas ∧
            List.Forall₂ (ChildArea frames frames') ms.areas new.areas ∧ Backed new.pageTable new.areas

theorem forkCow_spec (frames : Frames) (hw : ∀ a ∈ ms.areas, a.WF) :
    ForkedCow ms frames (ms.forkCow frames).1 (ms.forkCow frames).2.1 (ms.forkCow frames).2.2 := by
  have h : ForkedAreas (fun _ _ => True) (fun _ => True) (fun _ _ => True) ms.areas ms.pageTable frames
    newBare _ _ _ _ := forkAreas_spec hw ms.pageTable frames newBare
  have hresult : ∀ child, (ms.forkCow frames).2.2 = .ok child →
      ∃ new, (forkAreas ms.areas ms.pageTable frames newBare).2.2.2 = .ok new ∧
        child = new.coalesceAreas := fun child hc => by
    simp only [forkCow] at hc
    split at hc
    case h_1 new hn => cases hc; exact ⟨new, hn, rfl⟩
    case h_2 => cases hc
  refine ⟨h.parent, h.supply.subset, h.mem, fun child hc => ?_, fun child hc => ?_⟩
  case refine_1 =>
    have ⟨new, hn, _⟩ := hresult child hc
    exact h.hidden new hn
  case refine_2 =>
    have ⟨new, hn, he⟩ := hresult child hc
    have ⟨areas, hareas, hforall, hentries⟩ := h.child new hn
    have hareas : new.areas = areas := hareas
    refine ⟨new, he, hareas ▸ hforall, fun vpn pte hpte => ?_⟩
    rcases hentries vpn pte hpte with hb | hold
    case inl => exact hareas ▸ hb
    case inr => cases hold

namespace ForkedCow

variable {result : Except SysErrNo MemorySet}

theorem range (h : ForkedCow ms frames ms' frames' result) :
    ms'.areas.map MapArea.range = ms.areas.map MapArea.range :=
  Lists.forall₂_map_eq h.parent fun _ _ h => h.range

-- The contents of the parent stay as they are.
theorem parent_image (h : ForkedCow ms frames ms' frames' result) (hu : Unowned frames ms.areas)
    (vpn : Nat) : ms'.image frames'.mem vpn = ms.image frames.mem vpn := by
  refine Lists.forall₂_findSome? h.parent fun a ha a' hp => ?_
  refine view_image hp.range hp.backing hp.policy (hp.pages fun n page hn => ?_) vpn
  exact h.mem _ (hu.unowned a ha n page hn)

theorem child_areas_wf (h : ForkedCow ms frames ms' frames' result) (hc : result = .ok child) :
    ∀ a ∈ child.areas, a.WF := by
  have ⟨new, he, hforall, _⟩ := h.child child hc
  rw [he]
  refine coalesceAreas_rearranged.wf fun a ha => ?_
  have ⟨_, _, h⟩ := Lists.exists_of_mem_right hforall ha
  exact h.wf

-- The frames of the child are new or the ones of the parent.
theorem child_owns (h : ForkedCow ms frames ms' frames' result) (hc : result = .ok child)
    (ho : Owns child.areas isPrivate flags page) :
    (isPrivate → ¬Exposed true flags page) ∧
    (isPrivate ∧ page.frame ∈ frames.supply ∨ ∃ flags' page', Owns ms'.areas isPrivate flags' page' ∧
      page'.frame = page.frame ∧ flags'.w = flags.w) := by
  have ⟨new, he, hforall, _⟩ := h.child child hc
  have hws : ∀ a ∈ new.areas, a.WF := fun a ha =>
    have ⟨_, _, h⟩ := Lists.exists_of_mem_right hforall ha
    h.wf
  obtain ⟨a, ha, rfl, rfl, n, hn⟩ := (coalesceAreas_rearranged.owns hws).mp (he ▸ ho)
  have ⟨b, hb, hchild⟩ := Lists.exists_of_mem_right hforall ha
  have ⟨c, hc', hparent⟩ := Lists.exists_of_mem_left h.parent hb
  rw [hchild.backing]
  refine ⟨fun hp => hchild.hidden hp n page hn, ?_⟩
  have ⟨old, hold⟩ : ∃ old, b.resident.lookup n = some old := by
    cases hb' : b.resident.lookup n
    case none => rw [hchild.missing n hb'] at hn; cases hn
    case some old => exact ⟨old, rfl⟩
  have ⟨page', hn', hp⟩ := hchild.pages n old hold
  rw [hn, Option.some.injEq] at hn'
  subst hn'
  refine hp.symm.imp (fun ⟨hp, hf, _⟩ => ⟨hp, hf⟩) fun hf => ?_
  have hpf := hparent.frames n
  rw [hold, Option.map_some, Option.map_eq_some_iff] at hpf
  have ⟨page'', hn'', hf'⟩ := hpf
  exact ⟨c.flags, page'', ⟨c, hc', by rw [hparent.backing], rfl, n, hn''⟩, hf'.trans hf.symm,
    (withoutCow_w hparent.policy).trans (withoutCow_w hchild.policy).symm⟩

theorem child_wf (h : ForkedCow ms frames ms' frames' result) (hw : ms.WF) (hc : result = .ok child) :
    child.WF ∧ ∃ new : MemorySet, child.meaning = new.meaning ∧ child = new.coalesceAreas ∧
    List.Forall₂ (ChildArea frames frames') ms.areas new.areas := by
  have ⟨new, he, hforall, _⟩ := h.child child hc
  have hws : ∀ a ∈ new.areas, a.WF := fun a ha =>
    have ⟨_, _, h⟩ := Lists.exists_of_mem_right hforall ha
    h.wf
  have hs := hw.sorted.of_range (Lists.forall₂_map_eq hforall fun _ _ h => h.range)
  have hs' := coalesceAreas_sorted hws hs.apart
  rw [he]
  exact ⟨⟨coalesceAreas_rearranged.wf hws, hs'⟩, new,
    coalesceAreas_rearranged.meaning_eq ⟨hws, hs⟩ hs', rfl, hforall⟩

theorem child_image (h : ForkedCow ms frames ms' frames' result) (hw : ms.WF)
    (hu : Unowned frames ms.areas) (hc : result = .ok child) (vpn : Nat) :
    child.image frames'.mem vpn = ms.image frames.mem vpn := by
  have ⟨_, new, hm, _, hforall⟩ := h.child_wf hw hc
  simp only [image, hm]
  refine Lists.forall₂_findSome? hforall fun a ha a' hp => ?_
  exact view_image hp.range hp.backing hp.policy (hp.contents hu.nodup (hu.unowned a ha) h.mem) vpn

-- The frame of a page that is shared with other processes.
def sharedFrame (view : PageView) : Option (Option Ppn) :=
  if view.backing.isPrivate then none else some (view.page.map (·.frame))

theorem view_sharedFrame (hr : area'.range = area.range) (hb : area'.backing = area.backing)
    (hp : ¬area.backing.isPrivate → ∀ n,
      (area'.resident.lookup n).map (·.frame) = (area.resident.lookup n).map (·.frame)) (vpn : Nat) :
    (area'.view vpn).map sharedFrame = (area.view vpn).map sharedFrame := by
  have ⟨hs, he⟩ : area'.startVa = area.startVa ∧ area'.endVa = area.endVa := by
    simpa [MapArea.range] using hr
  simp only [MapArea.view, hs, he, hb]
  split
  case isTrue =>
    simp only [Option.map_some, sharedFrame, MapAreaBacking.page_isPrivate]
    split
    case isTrue => rfl
    case isFalse hn => rw [hp hn]
  case isFalse => rfl

theorem child_sharedFrame (h : ForkedCow ms frames ms' frames' result) (hw : ms.WF)
    (hc : result = .ok child) (vpn : Nat) :
    (child.meaning vpn).map sharedFrame = (ms.meaning vpn).map sharedFrame := by
  have ⟨_, new, hm, _, hforall⟩ := h.child_wf hw hc
  rw [hm]
  refine Lists.forall₂_findSome? hforall fun a ha a' hp => ?_
  refine view_sharedFrame hp.range hp.backing (fun hb n => ?_) vpn
  cases hn : a.resident.lookup n
  case none => rw [hp.missing n hn]
  case some page =>
    have ⟨page', hn', hf⟩ := hp.pages n page hn
    have hf : page'.frame = page.frame := hf.resolve_right fun hr => hb hr.1
    simp [hn', hf]

theorem parent_sharedFrame (h : ForkedCow ms frames ms' frames' result) (vpn : Nat) :
    (ms'.meaning vpn).map sharedFrame = (ms.meaning vpn).map sharedFrame :=
  Lists.forall₂_findSome? h.parent fun _ _ _ hp =>
    view_sharedFrame hp.range hp.backing (fun _ => hp.frames) vpn

end ForkedCow

-- The policy of a page decides which accesses it allows.
theorem allows_iff (hw : ms.WF) (mem : Ppn → Page) : ms.Allows addr access ↔
    ∃ image, ms.image mem (addr / pageSize) = some image ∧
      accessAllowed image.1 access.isStore access.isExec := by
  constructor
  case mp =>
    rintro ⟨i, area, hc, ha⟩
    obtain ⟨hi, hrange⟩ := areaContaining_sound hc
    have hwa := hw.areas area (areaContaining_mem hc)
    obtain ⟨view, hv⟩ := hwa.view_of_contains hrange
    have hm := hw.sorted.meaning_eq_some.mpr ⟨area, areaContaining_mem hc, hv⟩
    refine ⟨_, by rw [image, hm]; rfl, ?_⟩
    obtain ⟨_, _, he⟩ := MapArea.view_eq_some.mp hv
    simpa [he, accessAllowed, PTEFlags.withoutCow] using ha
  case mpr =>
    rintro ⟨im, hm, ha⟩
    simp only [image, Option.map_eq_some_iff] at hm
    obtain ⟨view, hm, rfl⟩ := hm
    obtain ⟨area, harea, hv⟩ := hw.sorted.meaning_eq_some.mp hm
    obtain ⟨i, hi⟩ := areaContaining_complete hw harea ((hw.areas area harea).contains_of_view hv)
    obtain ⟨_, _, he⟩ := MapArea.view_eq_some.mp hv
    exact ⟨i, area, hi, by simpa [he, accessAllowed, PTEFlags.withoutCow] using ha⟩

theorem anonymousWindow_congr (he : area'.endVa = area.endVa)
    (hl : ∀ n, (area'.resident.lookup n).isNone = (area.resident.lookup n).isNone)
    (pageStart pageIdx : Nat) :
    anonymousWindow area' pageStart pageIdx = anonymousWindow area pageStart pageIdx := by
  have hf : ∀ idx maxPages, forwardPages area'.resident idx maxPages =
      forwardPages area.resident idx maxPages := fun idx maxPages => by simp only [forwardPages, hl]
  have hb : ∀ idx maxPages, backwardPages area'.resident idx maxPages =
      backwardPages area.resident idx maxPages := fun idx maxPages => by simp only [backwardPages, hl]
  simp only [anonymousWindow, he, hf, hb]

theorem ParentArea.starvedWindow (h : ParentArea area area')
    (hs : starvedWindow frames area' addr) : starvedWindow frames area addr := by
  have ⟨hstart, hend⟩ : area'.startVa = area.startVa ∧ area'.endVa = area.endVa := by
    simpa [MapArea.range] using h.range
  have hl : ∀ n, (area'.resident.lookup n).isNone = (area.resident.lookup n).isNone := fun n => by
    rw [← Option.isNone_map, h.frames n, Option.isNone_map]
  have hx := withoutCow_x h.policy
  have hc : area'.flags.cow = false → area.flags.cow = false := fun hc => by
    by_contra hn
    simp [h.cow (by simpa using hn)] at hc
  simp only [MemorySet.starvedWindow, h.backing, hstart, hl, hx, anonymousWindow_congr hend hl,
    Bool.and_eq_true, Bool.not_eq_true', decide_eq_true_eq] at hs ⊢
  exact ⟨⟨⟨⟨⟨hs.1.1.1.1.1, hc hs.1.1.1.1.2⟩, hs.1.1.1.2⟩, hs.1.1.2⟩, hs.1.2⟩, hs.2⟩

-- A fault that was resolved before is resolved after the fork, too.
theorem ForkedCow.progress {result : Except SysErrNo MemorySet} {supply : Frames}
    (h : ForkedCow ms frames ms' frames' result) (hw : ms.Coherent) (hw' : ms'.Coherent)
    (henv : env.Lawful cached) (hp : Progress env ms supply addr access) :
    Progress env ms' supply addr access := by
  have hgood := (progress_iff hw.toWF hw.backed hw.user henv).mp hp
  refine (progress_iff hw'.toWF hw'.backed hw'.user henv).mpr fun i area' hc => ?_
  obtain ⟨_, hrange⟩ := areaContaining_sound hc
  obtain ⟨area, ha, hpa⟩ := Lists.exists_of_mem_right h.parent (areaContaining_mem hc)
  obtain ⟨hstart, hend⟩ : area'.startVa = area.startVa ∧ area'.endVa = area.endVa := by
    simpa [MapArea.range] using hpa.range
  obtain ⟨j, hj⟩ := areaContaining_complete hw.toWF ha (hstart ▸ hend ▸ hrange)
  obtain ⟨hstale, hstarved⟩ := hgood j area hj
  refine ⟨fun hs => hstale ⟨hs.1, hpa.stale addr hs.2⟩, fun hst => hstarved ⟨?_, hpa.starvedWindow hst.2⟩⟩
  simpa only [accessAllowed, withoutCow_r hpa.policy, withoutCow_w hpa.policy,
    withoutCow_x hpa.policy] using hst.1

theorem ForkedCow.child_user {result : Except SysErrNo MemorySet}
    (h : ForkedCow ms frames ms' frames' result) (hu : ∀ a ∈ ms.areas, a.flags.u)
    (hc : result = .ok child) : ∀ a ∈ child.areas, a.flags.u := by
  have ⟨new, he, hforall, _⟩ := h.child child hc
  have hws : ∀ a ∈ new.areas, a.WF := fun a ha =>
    have ⟨_, _, h⟩ := Lists.exists_of_mem_right hforall ha
    h.wf
  intro a ha
  have ⟨b, hb, hf⟩ := coalesceAreas_rearranged.flags_eq hws (he ▸ ha)
  have ⟨c, hc, h⟩ := Lists.exists_of_mem_right hforall hb
  rw [← hf, withoutCow_u h.policy]
  exact hu c hc

theorem ForkedCow.child_backed {result : Except SysErrNo MemorySet}
    (h : ForkedCow ms frames ms' frames' result) (hc : result = .ok child) :
    Backed child.pageTable child.areas := by
  have ⟨new, he, hforall, hb⟩ := h.child child hc
  have hws : ∀ a ∈ new.areas, a.WF := fun a ha =>
    have ⟨_, _, h⟩ := Lists.exists_of_mem_right hforall ha
    h.wf
  rw [he, coalesceAreas_pageTable]
  exact coalesceAreas_rearranged.backed hws hb

theorem forkCow_coherent (frames : Frames) (hw : ms.Coherent) : (ms.forkCow frames).1.Coherent := by
  have hstep : Step (fun _ _ => True) (fun _ => True) (fun _ _ => True) ms (ms.forkCow frames).1 :=
    forkCow_step frames hw.areas
  exact ⟨⟨hstep.wf hw.areas, hw.sorted.of_range (forkCow_spec frames hw.areas).range⟩,
    hstep.backed hw.areas hw.backed, hstep.user hw.areas hw.user⟩

theorem ForkedCow.child_coherent {result : Except SysErrNo MemorySet}
    (h : ForkedCow ms frames ms' frames' result) (hw : ms.Coherent) (hc : result = .ok child) :
    child.Coherent :=
  ⟨(h.child_wf hw.toWF hc).1, h.child_backed hc, h.child_user hw.user hc⟩

-- A fork copies the view of the parent, and it does not change this view even if it fails midway.
theorem fork_copies_view (ms : MemorySet) (frames : Frames) (hw : ms.Coherent)
    (hu : Unowned frames ms.areas) :
    -- The child has the policies, the backings and the contents of the parent, and the frames of the
    -- pages that are shared.
    (∀ child, (ms.forkCow frames).2.2 = .ok child → child.Coherent ∧ ∀ vpn,
      child.image (ms.forkCow frames).2.1.mem vpn = ms.image frames.mem vpn ∧
      ∀ view, ms.meaning vpn = some view → ¬view.backing.isPrivate →
        ∃ view', child.meaning vpn = some view' ∧ view'.page.map (·.frame) = view.page.map (·.frame)) ∧
    -- The parent keeps its own, and it is allowed the same accesses.
    (ms.forkCow frames).1.Coherent ∧
    (∀ vpn, (ms.forkCow frames).1.image (ms.forkCow frames).2.1.mem vpn = ms.image frames.mem vpn ∧
      ∀ view, ms.meaning vpn = some view → ¬view.backing.isPrivate →
        ∃ view', (ms.forkCow frames).1.meaning vpn = some view' ∧
          view'.page.map (·.frame) = view.page.map (·.frame)) ∧
    (∀ addr access, (ms.forkCow frames).1.Allows addr access ↔ ms.Allows addr access) ∧
    ∀ env cached, Env.Lawful env cached → ∀ supply addr access,
      Progress env ms supply addr access → Progress env (ms.forkCow frames).1 supply addr access := by
  have h := forkCow_spec frames hw.areas
  have hw' := forkCow_coherent frames hw
  have himage := h.parent_image hu
  -- The frames of shared pages as they are seen in either of the two.
  have hshared : ∀ {ms' : MemorySet} {vpn view},
      (ms'.meaning vpn).map ForkedCow.sharedFrame = (ms.meaning vpn).map ForkedCow.sharedFrame →
      ms.meaning vpn = some view → ¬view.backing.isPrivate →
      ∃ view', ms'.meaning vpn = some view' ∧
        view'.page.map (·.frame) = view.page.map (·.frame) := fun {ms' vpn view} heq hm hp => by
    rw [hm, Option.map_some, Option.map_eq_some_iff] at heq
    have ⟨view', hm', hf⟩ := heq
    refine ⟨view', hm', ?_⟩
    simp only [ForkedCow.sharedFrame, hp, Bool.false_eq_true, if_false] at hf
    split at hf
    case isTrue => cases hf
    case isFalse => exact Option.some.inj hf
  refine ⟨fun child hc => ⟨h.child_coherent hw hc, fun vpn => ⟨h.child_image hw.toWF hu hc vpn, ?_⟩⟩, hw',
    fun vpn => ⟨himage vpn, ?_⟩, fun addr access => ?_, fun env cached henv supply addr access => ?_⟩
  case refine_1 => exact fun view => hshared (h.child_sharedFrame hw.toWF hc vpn)
  case refine_2 => exact fun view => hshared (h.parent_sharedFrame vpn)
  case refine_3 =>
    rw [allows_iff hw'.toWF (ms.forkCow frames).2.1.mem, allows_iff hw.toWF frames.mem, himage]
  case refine_4 => exact h.progress hw hw' henv

-- A process with one page that is resident.
def residentPage : MemorySet :=
  (newBare.insertFramedAreaWithBacking ⟨fun _ => .zero, [7]⟩ 0x1000 0x2000
    { PTEFlags.empty with v := true, r := true, w := true, u := true } .anonymous).1

theorem residentPage_coherent : residentPage.Coherent := by
  have hwf : newBare.WF := ⟨by simp [newBare], .nil⟩
  have hfree : newBare.RangeFree 0x1000 0x2000 := by simp [RangeFree, newBare]
  have hstep : Step (fun _ _ => True) (fun _ => True) (fun _ _ => True) newBare residentPage :=
    insertFramedAreaWithBacking_step ⟨fun _ => .zero, [7]⟩ 0x1000 0x2000 rfl (by decide) fun _ _ => trivial
  exact ⟨⟨hstep.wf hwf.areas, insertFramedAreaWithBacking_sorted hwf hfree (by decide)⟩,
    hstep.backed hwf.areas (fun _ _ he => nomatch he), hstep.user hwf.areas (by simp [newBare])⟩

theorem fork_residentPage : ∃ child, (residentPage.forkCow ⟨fun _ => .zero, []⟩).2.2 = .ok child ∧
    ∀ vpn, child.image (residentPage.forkCow ⟨fun _ => .zero, []⟩).2.1.mem vpn =
      residentPage.image (fun _ => .zero) vpn := by
  have hok : (residentPage.forkCow ⟨fun _ => .zero, []⟩).2.2.isOk := by decide_cbv
  obtain ⟨hchild, _⟩ := fork_copies_view residentPage ⟨fun _ => .zero, []⟩ residentPage_coherent
    ⟨.nil, fun _ _ _ _ _ => List.not_mem_nil⟩
  cases hc : (residentPage.forkCow ⟨fun _ => .zero, []⟩).2.2
  case error => simp [hc, Except.isOk, Except.toBool] at hok
  case ok child => exact ⟨child, rfl, fun vpn => ((hchild child hc).2 vpn).1⟩

end MemorySet

end WllOs
