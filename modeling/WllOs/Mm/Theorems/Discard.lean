import WllOs.Mm.Theorems.ReadsZero

namespace WllOs

variable {ms ms' : MemorySet} {area : MapArea} {pageTable : PageTable} {env : Env} {frames : Frames}
variable {start stop vpn addr k i discarded : Nat}

-- What is left of the meaning of a page that is discarded.
def PageView.discard (view : PageView) : PageView :=
  if view.backing = .anonymous then { view with page := none } else view

theorem Env.Lawful.mono {cached cached' : Ppn → Prop} (h : env.Lawful cached) (hc : ∀ frame, cached frame → cached' frame) :
    env.Lawful cached' where
  refCount_pos := h.refCount_pos
  cache ino fileOffset maxPages readAheadPages frames he :=
    ⟨(h.cache ino fileOffset maxPages readAheadPages frames he).1,
      fun frame hf => hc frame ((h.cache ino fileOffset maxPages readAheadPages frames he).2 frame hf)⟩

theorem MapAreaBacking.page_eq_anonymous {backing : MapAreaBacking} {delta : Nat} :
    backing.page delta = .anonymous ↔ backing = .anonymous := by
  cases backing <;> simp [MapAreaBacking.page]

namespace MemorySet

-- The part of an area that is discarded, as indices of its pages.
theorem discard_index_iff (hw : area.WF) (hs : start % pageSize = 0) (he : stop % pageSize = 0)
    (hb : area.startVa ≤ vpn * pageSize ∧ vpn * pageSize < area.endVa) :
    ((max start area.startVa - area.startVa) / pageSize ≤ (vpn * pageSize - area.startVa) / pageSize ∧
      (vpn * pageSize - area.startVa) / pageSize < (min stop area.endVa - area.startVa) / pageSize) ↔
    start ≤ vpn * pageSize ∧ vpn * pageSize < stop := by
  have := hw.start_aligned
  have := hw.end_aligned
  simp only [pageSize] at *
  omega

structure AreaDiscarded (start stop : Nat) (area area' : MapArea) (pageTable pageTable' : PageTable) : Prop where
  topology  : area'.topology = area.topology
  view      : ∀ vpn, area'.view vpn = if start ≤ vpn * pageSize ∧ vpn * pageSize < stop then
                (area.view vpn).map PageView.discard else area.view vpn
  pageTable : ∀ vpn, pageTable' vpn = pageTable vpn ∨ (start ≤ vpn * pageSize ∧ vpn * pageSize < stop) ∧
                ∃ view, area.view vpn = some view ∧ view.backing = .anonymous

theorem discardArea_spec (hw : area.WF) (hs : start % pageSize = 0) (he : stop % pageSize = 0) (hlt : start < stop)
    (pageTable : PageTable) : AreaDiscarded start stop area (discardArea start stop area pageTable).1 pageTable
      (discardArea start stop area pageTable).2.1 := by
  by_cases hskip : !area.overlaps start stop || area.backing ≠ .anonymous
  case pos =>
    simp only [discardArea, hskip, ite_true]
    refine ⟨rfl, fun vpn => ?_, fun _ => .inl rfl⟩
    split
    case isFalse => rfl
    case isTrue hr =>
      cases hv : area.view vpn
      case none => rfl
      case some view =>
        obtain ⟨h₁, h₂, hview⟩ := MapArea.view_eq_some.mp hv
        have ho : area.overlaps start stop := overlaps_iff.mpr (by omega)
        have hb : area.backing ≠ .anonymous := by simpa [ho] using hskip
        simp [PageView.discard, hview, MapAreaBacking.page_eq_anonymous, hb]
  case neg =>
    obtain ⟨ho, hb⟩ : area.overlaps start stop ∧ area.backing = .anonymous := by simpa using hskip
    have hle : (max start area.startVa - area.startVa) / pageSize ≤
        (min stop area.endVa - area.startVa) / pageSize := by
      have := overlaps_iff.mp ho
      have := hw.start_lt_end
      exact Nat.div_le_div_right (by omega)
    obtain ⟨resident, owner, hx, hw', _, hl, _⟩ := MapArea.extractResidentRange_ok hw hle
    simp only [discardArea, hskip, Bool.false_eq_true, ite_false, hx]
    refine ⟨rfl, fun vpn => ?_, fun vpn => ?_⟩
    case refine_1 =>
      simp only [MapArea.view]
      by_cases hin : area.startVa ≤ vpn * pageSize ∧ vpn * pageSize < area.endVa
      case neg => simp [hin]
      case pos =>
        rw [if_pos hin, if_pos hin, hl, Option.map_some]
        simp only [discard_index_iff hw hs he hin]
        split <;> simp [PageView.discard, hb, MapAreaBacking.page]
    case refine_2 =>
      simp only [unmapAreaResidentRange]
      split
      case isTrue => exact .inl rfl
      case isFalse =>
        rw [unmapEntries_apply hw]
        split
        case isFalse => exact .inl rfl
        case isTrue hr =>
          obtain ⟨hp, h₁, h₂⟩ := hr
          obtain ⟨page, hp⟩ := Option.isSome_iff_exists.mp hp
          have hin := hw.pageAt_bounds hp
          have hindex : (vpn * pageSize - area.startVa) / pageSize = vpn - area.startVa / pageSize := by
            have := hw.start_aligned
            simp only [pageSize] at *
            omega
          refine .inr ⟨(discard_index_iff hw hs he hin).mp ?_, _, MapArea.view_eq_some.mpr ⟨hin.1, hin.2, rfl⟩,
            MapAreaBacking.page_eq_anonymous.mpr hb⟩
          rw [hindex]
          exact ⟨Nat.le_sub_of_add_le' h₁, Nat.sub_lt_left_of_lt_add (Nat.le_of_add_right_le h₁) h₂⟩

theorem discardAreas_spec {areas : List MapArea} (hw : ∀ a ∈ areas, a.WF) (hs : start % pageSize = 0)
    (he : stop % pageSize = 0) (hlt : start < stop) (pageTable : PageTable) :
    (discardAreas start stop areas pageTable).1.map MapArea.topology = areas.map MapArea.topology ∧
    (∀ vpn, (discardAreas start stop areas pageTable).1.findSome? (·.view vpn) =
      if start ≤ vpn * pageSize ∧ vpn * pageSize < stop then
        (areas.findSome? (·.view vpn)).map PageView.discard else areas.findSome? (·.view vpn)) ∧
    ∀ vpn, (discardAreas start stop areas pageTable).2.1 vpn = pageTable vpn ∨
      (start ≤ vpn * pageSize ∧ vpn * pageSize < stop) ∧
        ∃ view, Views areas vpn view ∧ view.backing = .anonymous := by
  induction areas generalizing pageTable
  case nil => simp [discardAreas]
  case cons area rest hi =>
    obtain ⟨hwa, hwr⟩ := List.forall_mem_cons.mp hw
    have harea := discardArea_spec hwa hs he hlt pageTable
    obtain ⟨htopology, hview, hentry⟩ := hi hwr (discardArea start stop area pageTable).2.1
    refine ⟨?_, fun vpn => ?_, fun vpn => ?_⟩
    case refine_1 => simp only [discardAreas, List.map_cons, harea.topology, htopology]
    case refine_2 =>
      simp only [discardAreas, List.findSome?_cons, harea.view, hview]
      by_cases hr : start ≤ vpn * pageSize ∧ vpn * pageSize < stop
      case neg => simp only [if_neg hr]
      case pos =>
        simp only [if_pos hr]
        cases area.view vpn <;> rfl
    case refine_3 =>
      rcases hentry vpn with h | ⟨hr, view, hv, hb⟩
      case inl =>
        refine (harea.pageTable vpn).imp (fun h' => h.trans h') fun h' => ?_
        obtain ⟨hr, view, hv, hb⟩ := h'
        exact ⟨hr, view, Views.cons.mpr (.inl hv), hb⟩
      case inr => exact .inr ⟨hr, view, Views.cons.mpr (.inr hv), hb⟩

theorem discardAnonymousRange_ok (h : ms.discardAnonymousRange start stop = .ok (ms', discarded)) :
    start % pageSize = 0 ∧ stop % pageSize = 0 ∧ start < stop ∧
    ms'.areas = (discardAreas start stop ms.areas ms.pageTable).1 ∧
    ms'.pageTable = (discardAreas start stop ms.areas ms.pageTable).2.1 := by
  simp only [discardAnonymousRange] at h
  split at h
  case isTrue => cases h
  case isFalse hr =>
    split at h
    case isTrue => cases h
    case isFalse =>
      cases h
      simp only [Bool.or_eq_true, decide_eq_true_eq, not_or] at hr
      exact ⟨by omega, by omega, by omega, rfl, rfl⟩

-- A page that is discarded has no frame any more, and pages that are not keep what they have.
theorem Coherent.discardAnonymousRange (hc : ms.Coherent)
    (h : ms.discardAnonymousRange start stop = .ok (ms', discarded)) :
    ms'.Coherent ∧ ms.Discarded start stop ms' := by
  obtain ⟨hs, he, hlt, hareas, hpt⟩ := discardAnonymousRange_ok h
  have hstep : AnyStep (fun _ => True) ms ms' := discardAnonymousRange_step h
  have hc' := hc.step hstep (discardAnonymousRange_sorted hc.toWF h)
  obtain ⟨htopology, hview, hentry⟩ := discardAreas_spec hc.areas hs he hlt ms.pageTable
  rw [← hareas] at htopology hview
  rw [← hpt] at hentry
  have hmeaning : ∀ vpn, ms'.meaning vpn = if start ≤ vpn * pageSize ∧ vpn * pageSize < stop then
      (ms.meaning vpn).map PageView.discard else ms.meaning vpn := hview
  refine ⟨hc', htopology, fun vpn hd => ?_, fun vpn hn => ?_⟩
  case refine_1 =>
    obtain ⟨hr, view, hv, hb⟩ := hd
    have hv' : ms'.meaning vpn = some { view with page := none } := by
      rw [hmeaning, if_pos hr, hv, Option.map_some, PageView.discard, if_pos hb]
    rw [hv', hv]
    exact ⟨rfl, (hc'.readsZero hv' hb rfl).unmapped⟩
  case refine_2 =>
    have hnone : ∀ view, (start ≤ vpn * pageSize ∧ vpn * pageSize < stop) → ms.meaning vpn = some view →
        view.backing ≠ .anonymous := fun view hr hv hb => hn ⟨hr, view, hv, hb⟩
    refine ⟨?_, (hentry vpn).resolve_right fun h' => ?_⟩
    case refine_1 =>
      rw [hmeaning]
      split
      case isFalse => rfl
      case isTrue hr =>
        cases hv : ms.meaning vpn
        case none => rfl
        case some view => simp [PageView.discard, hnone view hr hv]
    case refine_2 =>
      obtain ⟨hr, view, hv, hb⟩ := h'
      exact hnone view hr (hc.sorted.meaning_eq_some.mpr hv) hb

-- The area of an anonymous page that is not resident.
theorem Coherent.anonymous_absent {view : PageView} (hc : ms.Coherent) (h : ms.areaContaining addr = some (i, area))
    (ha : addr / pageSize = vpn) (hv : ms.meaning vpn = some view) (hb : view.backing = .anonymous)
    (hp : view.page = none) : area.backing = .anonymous ∧
    area.resident.lookup ((alignDown addr - area.startVa) / pageSize) = none := by
  have hm := areaContaining_mem h
  obtain ⟨_, hrange⟩ := areaContaining_sound h
  obtain ⟨h₁, h₂⟩ := (hc.areas area hm).alignDown_iff.mpr hrange
  subst ha
  have hview := hc.sorted.meaning_eq_some.mpr ⟨area, hm, MapArea.view_eq_some.mpr ⟨h₁, h₂, rfl⟩⟩
  rw [hv, Option.some.injEq] at hview
  subst hview
  exact ⟨MapAreaBacking.page_eq_anonymous.mp hb, hp⟩

-- The window of an anonymous fault starts less than its maximal size before the page that faulted.
theorem anonymousWindow_start (area : MapArea) (pageStart n : Nat) :
    n - (anonymousWindow area pageStart n).1 < anonymousFaultWindowPages := by
  obtain ⟨hback, _⟩ := backwardPages_spec area.resident n (min (n + 1) anonymousFaultWindowPages)
  simp only [anonymousWindow]
  generalize backwardPages area.resident n (min (n + 1) anonymousFaultWindowPages) = backward at hback
  generalize forwardPages area.resident n _ = forward
  have hpos : 0 < anonymousFaultWindowPages := by decide
  by_cases hf : forward < anonymousFaultWindowPages
  case pos =>
    simp only [if_pos hf]
    split <;> (dsimp only; omega)
  case neg =>
    simp only [if_neg hf]
    split <;> (dsimp only; omega)

-- A load of an anonymous page that is not resident is resolved if there are frames for its window.
theorem handlePageFault_load_ok (hc : ms.Coherent) (h : ms.areaContaining addr = some (i, area))
    (hr : area.flags.r) (hb : area.backing = .anonymous) (ht : ms.translate addr = none)
    (hn : area.resident.lookup ((alignDown addr - area.startVa) / pageSize) = none)
    (hs : frames.supply ≠ []) : ∃ ms' frames', handlePageFault env ms frames addr false false = .ok (ms', frames') := by
  have hl : area.flags.hasLeafPermission := by simp [PTEFlags.hasLeafPermission, hr]
  have ht' : ms.translate (alignDown addr) = none := by simpa only [translate, alignDown_div] using ht
  simp only [handlePageFault, h, hl, accessAllowed, hr, ht', hn, hb, cleanCachePage, ite_self, Bool.not_true,
    Bool.or_self, Bool.false_eq_true, Bool.false_and, Option.isSome_none, if_false, decide_true, Bool.true_and]
  split
  case isTrue =>
    obtain ⟨ms', frames', _, he, _⟩ := anonymousFault_ok (fun _ => True) (fun _ _ => True) hc.areas h hl rfl hn hs
    exact ⟨ms', frames', he⟩
  case isFalse =>
    obtain ⟨frame, supply, hsupply⟩ := List.exists_cons_of_ne_nil hs
    have hlt := (hc.areas area (areaContaining_mem h)).index_lt_pageCount (areaContaining_sound h).2
    obtain ⟨resident, hins, _⟩ :=
      MapArea.insertResidentPage_ok frame .priv (hc.areas area (areaContaining_mem h)) hlt hn fun he => by cases he
    simp only [backingFault, areaContaining_alignDown hc.areas, h, hn, Option.isSome_none, Bool.false_eq_true, if_false,
      Frames.allocFrame, hsupply, hb, readBackingPage, backingPageState, hins]
    exact ⟨_, _, rfl⟩

end MemorySet

namespace World

variable {w w' : World} {op : Op}

-- The operations on other address spaces leave the one of a process as it is.
theorem step_other (hk : w.spaces[k]? = some ms) (hp : op.process ≠ some k) : (w.step op).spaces[k]? = some ms := by
  cases hj : op.process
  case none =>
    cases op
    case newBare => exact (List.getElem?_append_left (List.getElem?_eq_some_iff.mp hk).1).trans hk
    case cacheFrame | evictFrame | createSegment | dropSegment => exact hk
    all_goals cases hj
  case some j =>
    have hne : j ≠ k := fun he => hp (he ▸ hj)
    have hset : ∀ ms' mem, (w.setSpace j ms' mem).spaces[k]? = some ms := fun ms' mem =>
      (List.getElem?_set_ne hne).trans hk
    rw [step_process hj]
    cases w.spaces[j]?
    case none => exact hk
    case some ms' =>
      rw [Option.elim_some]
      cases op <;> simp only [stepSpace, World.store]
      case insertFramedArea | prepareWrite | releaseUserAreas => exact hset _ _
      case forkCow =>
        split
        case h_1 ms₁ frames child _ =>
          have hlt : k < (w.setSpace j ms₁ frames.mem).spaces.length :=
            (List.getElem?_eq_some_iff.mp (hset ms₁ frames.mem)).1
          exact (List.getElem?_append_left hlt).trans (hset ms₁ frames.mem)
        case h_2 => exact hset _ _
      case newBare | cacheFrame | evictFrame | createSegment | dropSegment => exact hk
      all_goals split
      all_goals first
        | exact hset _ _
        | exact hk
        | (split <;> exact hk)

theorem Meanwhile.space (h : Meanwhile k w w') (hk : w.spaces[k]? = some ms) : w'.spaces[k]? = some ms := by
  induction h
  case refl => exact hk
  case tail hstep hi =>
    obtain ⟨op, _, hp, rfl⟩ := hstep
    exact step_other hi hp

theorem load_none (h : ms.pageTable (addr / pageSize) = none) : w.load ms addr = none := by
  simp only [World.load, MemorySet.translate, h]

-- A page that is mapped and whose frame holds zeros reads as zero.
theorem load_zero {byte : UInt8} (hc : ms.Coherent) (ha : addr / pageSize = vpn)
    (hz : ∀ view page, ms.meaning vpn = some view → view.page = some page → w.mem page.frame = .zero)
    (h : w.load ms addr = some byte) : byte = 0 := by
  simp only [World.load] at h
  split at h
  case h_1 => cases h
  case h_2 pte ht =>
    split at h
    case isFalse => cases h
    case isTrue =>
      obtain ⟨area, hm, _, page, hpage, hpte⟩ := hc.backed _ _ ht
      have hin := (hc.areas area hm).pageAt_bounds hpage
      have hframe : pte.ppn = page.frame := by
        simp only [pteOf, Option.ite_none_left_eq_some, Option.some.injEq] at hpte
        exact hpte.2 ▸ rfl
      have hpage' : area.resident.lookup ((addr / pageSize * pageSize - area.startVa) / pageSize) = some page := by
        rw [← (hc.areas area hm).pageAt_eq hin.1]
        exact hpage
      have hmeaning := hc.sorted.meaning_eq_some.mpr ⟨area, hm, MapArea.view_eq_some.mpr ⟨hin.1, hin.2, rfl⟩⟩
      rw [ha] at hmeaning hpage'
      rw [hframe, hz _ page hmeaning hpage', Option.some.injEq] at h
      exact h.symm

-- The next access to an anonymous page that is not resident finds zeros.
theorem nextLoadZero {view : PageView} (hk : w.spaces[k]? = some ms) (hc : ms.Coherent)
    (hv : ms.meaning vpn = some view) (hb : view.backing = .anonymous) (hp : view.page = none) :
    w.NextLoadZero k vpn ms := by
  have hreads := hc.readsZero hv hb hp
  refine ⟨fun addr ha => load_none (ha ▸ hreads.unmapped), fun addr env supply ha hvalid => ?_⟩
  have hlt := (List.getElem?_eq_some_iff.mp hk).1
  have hpt : ms.translate addr = none := by rw [MemorySet.translate, ha, hreads.unmapped]
  have hlawful : (w.env env).Lawful (fun _ => True) := hvalid.2.mono fun _ _ => trivial
  have hstep : w.step (.handlePageFault k env supply addr .load) =
      w.stepSpace k ms (.handlePageFault k env supply addr .load) := by
    rw [step_process rfl, hk, Option.elim_some]
  rw [hstep, stepSpace]
  cases hf : MemorySet.handlePageFault (w.env env) ms ⟨w.mem, supply⟩ addr Access.load.isStore Access.load.isExec
  case error error =>
    have hnone : w.load ms addr = none := load_none (ha ▸ hreads.unmapped)
    dsimp only
    refine ⟨ms, hk, fun byte hbyte => by simp [hnone] at hbyte, fun hallow hs => ?_⟩
    obtain ⟨i, area, ha', hallow⟩ := hallow
    obtain ⟨hb', hn⟩ := hc.anonymous_absent ha' ha hv hb hp
    have hne : supply ≠ [] := fun hnil => by simp [hnil, MemorySet.anonymousFaultWindowPages] at hs
    obtain ⟨ms', frames', hok⟩ : ∃ ms' frames',
        MemorySet.handlePageFault (w.env env) ms ⟨w.mem, supply⟩ addr false false = .ok (ms', frames') :=
      MemorySet.handlePageFault_load_ok hc ha' hallow hb' hpt hn hne
    rw [show Access.load.isStore = false from rfl, show Access.load.isExec = false from rfl] at hf
    rw [hf] at hok
    cases hok
  case ok result =>
    obtain ⟨ms', frames'⟩ := result
    have hc' := (MemorySet.handlePageFault_resolution hc.areas hvalid.2 hf).coherent hc
    have hzero : ∀ byte, (w.setSpace k ms' frames'.mem).load ms' addr = some byte → byte = 0 := fun byte hbyte =>
      load_zero hc' ha (fun view page hm hpage => hreads.zero _ _ addr .load _ _ view page hlawful hf hm hpage) hbyte
    refine ⟨ms', List.getElem?_set_self hlt, hzero, fun hallow hs => ?_⟩
    obtain ⟨i, area, ha', hallow⟩ := hallow
    have hserves : ms'.Serves addr .load := by
      refine MemorySet.serves_of_handled hc.toWF hc.backed hc.user hvalid.2 (fun j area' _ => ?_) hf
      refine ⟨fun he => (by cases he.1), fun hstarved => ?_⟩
      have hstart := MemorySet.anonymousWindow_start area' (alignDown addr) ((alignDown addr - area'.startVa) / pageSize)
      have hle := hstarved.2
      simp only [MemorySet.starvedWindow, Bool.and_eq_true, decide_eq_true_eq] at hle
      omega
    obtain ⟨_, _, page, pte, _, _, ht, _, hpermits⟩ := hserves
    have hload : (w.setSpace k ms' frames'.mem).load ms' addr =
        some (frames'.mem pte.ppn ⟨addr % pageSize, Nat.mod_lt _ pageSize_pos⟩) := by
      simp only [World.load, ht, hpermits, if_true]
      rfl
    rw [hload, hzero _ hload]

end World

end WllOs
