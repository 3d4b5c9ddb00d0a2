import WllOs.Mm.Theorems.Ranges

namespace WllOs

variable {area : MapArea} {env : Env} {i addr : Nat} {page : ResidentPage} {pte : Pte}
variable {ms ms' : MemorySet} {frames frames' : Frames} {flags : PTEFlags} {access : Access}
variable {cached : Ppn → Prop}

-- A page is published with the accesses that its area allows, except for stores to a page that is
-- copy-on-write.
theorem permits_of_allowed (hu : flags.u) (ha : MemorySet.accessAllowed flags access.isStore access.isExec)
    (hs : access = .store → page.state ≠ .cow) :
    ∃ pte, pteOf flags page = some pte ∧ pte.ppn = page.frame ∧ pte.flags.permits access := by
  have hne : ¬(effectiveMappingFlagsForPage flags page).isEmpty := by
    by_cases hc : page.state = .cow <;>
      simp [effectiveMappingFlagsForPage, MappingFlags.isEmpty, MappingFlags.ofPTEFlags, hc, hu]
  refine ⟨_, if_neg hne, rfl, ?_⟩
  cases access
  case load =>
    by_cases hc : page.state = .cow <;>
      simp_all [effectiveMappingFlagsForPage, MappingFlags.permits, MappingFlags.ofPTEFlags,
        MemorySet.accessAllowed, Access.isStore, Access.isExec]
  case store =>
    have hc := hs rfl
    simp_all [effectiveMappingFlagsForPage, MappingFlags.permits, MappingFlags.ofPTEFlags,
      MemorySet.accessAllowed, Access.isStore, Access.isExec]
  case execute =>
    by_cases hc : page.state = .cow <;>
      simp_all [effectiveMappingFlagsForPage, MappingFlags.permits, MappingFlags.ofPTEFlags,
        MemorySet.accessAllowed, Access.isExec]

theorem not_permits_store (hc : page.state = .cow) (h : pteOf flags page = some pte) :
    ¬pte.flags.permits .store := by
  simp only [pteOf, Option.ite_none_left_eq_some, Option.some.injEq] at h
  simp [← h.2, effectiveMappingFlagsForPage, MappingFlags.permits, MappingFlags.ofPTEFlags, hc]

theorem MapArea.WF.index_alignDown (h : area.WF) (ha : area.startVa ≤ addr) :
    (alignDown addr - area.startVa) / pageSize = (addr - area.startVa) / pageSize := by
  have := h.start_aligned
  simp only [alignDown, pageSize] at *
  omega

theorem MapArea.WF.contains_of_pageAt (h : area.WF) (hp : area.pageAt (addr / pageSize) = some page) :
    area.startVa ≤ addr ∧ addr < area.endVa := by
  have ⟨h₁, h₂⟩ := h.pageAt_bounds hp
  have := h.start_aligned
  have := h.end_aligned
  simp only [pageSize] at *
  omega

namespace MemorySet

-- Without overlaps, an entry is published by the area that the lookup finds.
theorem translate_backs (hw : ms.WF) (hb : Backed ms.pageTable ms.areas)
    (hc : ms.areaContaining addr = some (i, area)) (ht : ms.translate addr = some pte) :
    ∃ page, area.resident.lookup ((addr - area.startVa) / pageSize) = some page ∧
    pteOf area.flags page = some pte := by
  have ⟨area', hm, _, page, hpage, hpte⟩ := hb _ _ ht
  have ⟨_, hrange⟩ := areaContaining_sound hc
  have hrange' := (hw.areas area' hm).contains_of_pageAt hpage
  obtain rfl := hw.sorted.unique hm (areaContaining_mem hc) hrange' hrange
  have hwa := hw.areas area' hm
  rw [← hwa.index_eq hrange.1, MapArea.pageAt_add, hwa.index_alignDown hrange.1] at hpage
  exact ⟨page, hpage, hpte⟩

theorem Resolved.wf {fresh grant : Bool → Ppn → Prop} {resident : ResidentSet} (hw : ms.WF)
    (hi : ms.areas[i]? = some area) (h : Resolved fresh cached grant ms ms' i area resident) : ms'.WF :=
  ⟨(h.step_set hi).wf hw.areas, hw.sorted.of_range (h.range hi)⟩

-- What a lookup finds once pages of its area have become resident.
theorem Resolved.areaContaining {fresh grant : Bool → Ppn → Prop} {resident : ResidentSet} (hw : ms.WF)
    (hc : ms.areaContaining addr = some (i, area))
    (h : Resolved fresh cached grant ms ms' i area resident) :
    ∃ j, ms'.areaContaining addr = some (j, { area with resident }) := by
  have ⟨hi, hrange⟩ := areaContaining_sound hc
  refine areaContaining_complete (h.wf hw hi) ?_ hrange
  rw [h.areas]
  exact List.mem_set (List.getElem?_eq_some_iff.mp hi).1 _

theorem Published.translate (hw : area.WF) (hrange : area.startVa ≤ addr)
    (h : ms.Published area ((alignDown addr - area.startVa) / pageSize) page) :
    ms.translate addr = pteOf area.flags page := by
  rw [MemorySet.translate, ← hw.index_eq hrange, h.2]

theorem serves_of_handled (hw : ms.WF) (hb : Backed ms.pageTable ms.areas)
    (hu : ∀ a ∈ ms.areas, a.flags.u) (henv : env.Lawful cached)
    (hgood : ∀ i area, ms.areaContaining addr = some (i, area) →
      ¬(access = .store ∧ staleCowPage area addr) ∧
      ¬(accessAllowed area.flags access.isStore access.isExec ∧ starvedWindow frames area addr))
    (h : handlePageFault env ms frames addr access.isStore access.isExec = .ok (ms', frames')) :
    ms'.Serves addr access := by
  have ⟨_, i, area, hc, hallow, hcases⟩ :=
    handlePageFault_ok (fun _ _ => True) hw.areas henv h
  have ⟨hstale, hstarved⟩ := hgood i area hc
  have ⟨hi, hrange⟩ := areaContaining_sound hc
  have hwa := hw.areas area (areaContaining_mem hc)
  have hua := hu area (areaContaining_mem hc)
  -- A store to a page that is copy-on-write is only left over for areas that are not.
  have hstore : ∀ page, area.resident.lookup ((addr - area.startVa) / pageSize) = some page →
      ¬(access.isStore ∧ area.flags.cow) → access = .store → page.state ≠ .cow := by
    rintro page hpage hcow rfl hstate
    refine hstale ⟨rfl, ?_⟩
    simp_all [staleCowPage, accessAllowed, Access.isStore, Access.isExec]
  rcases hcases with ⟨rfl, ht, hcow⟩ | ⟨resident, hres, hpub⟩
  case inl =>
    have ⟨pte, hpte⟩ := Option.isSome_iff_exists.mp ht
    have ⟨page, hpage, hentry⟩ := translate_backs hw hb hc hpte
    have ⟨pte', hpte', hframe, hpermits⟩ := permits_of_allowed hua hallow (hstore page hpage hcow)
    rw [hentry, Option.some.injEq] at hpte'
    exact ⟨i, area, page, pte', hc, hpage, hpte' ▸ hpte, hframe, hpermits⟩
  case inr =>
    have ⟨page, hp, hstate⟩ := hpub fun hs => hstarved ⟨hallow, hs⟩
    have ⟨j, hj⟩ := hres.areaContaining hw hc
    have hpermit : access = .store → page.state ≠ .cow := fun hs he => by
      have ⟨hcow, hpage⟩ := hstate he
      rw [hwa.index_alignDown hrange.1] at hpage
      exact hstore page hpage hcow hs he
    have ⟨pte, hpte, hframe, hpermits⟩ := permits_of_allowed hua hallow hpermit
    refine ⟨j, _, page, pte, hj, ?_, ?_, hframe, hpermits⟩
    · rw [← hwa.index_alignDown hrange.1]
      exact hp.1
    · exact (hp.translate hres.step.wf hrange.1).trans hpte

theorem not_serves_of_staleCowPage (env : Env) (frames : Frames) (hw : ms.WF) (hb : Backed ms.pageTable ms.areas)
    (hc : ms.areaContaining addr = some (i, area)) (h : staleCowPage area addr) :
    ∃ ms' frames', handlePageFault env ms frames addr true false = .ok (ms', frames') ∧
    ¬ms'.Serves addr .store := by
  obtain ⟨hi, hrange⟩ := areaContaining_sound hc
  have hwa := hw.areas area (areaContaining_mem hc)
  simp only [staleCowPage, Bool.and_eq_true, Bool.not_eq_true', Option.any_eq_true_iff_get,
    decide_eq_true_eq] at h
  obtain ⟨⟨hwrite, hcow⟩, hsome, hstate⟩ := h
  obtain ⟨page, hpage⟩ := Option.isSome_iff_exists.mp hsome
  simp only [hpage, Option.get_some] at hstate
  have hl : area.flags.hasLeafPermission := by simp [PTEFlags.hasLeafPermission, hwrite]
  have hpage' := hwa.index_alignDown hrange.1 ▸ hpage
  have hpt : ms.pageTable (alignDown addr / pageSize) = ms.translate addr := by
    rw [translate, alignDown_div]
  cases ht : ms.translate addr
  case some pte =>
    refine ⟨ms, frames, ?_, ?_⟩
    case refine_1 =>
      simp [handlePageFault, hc, hl, accessAllowed, hwrite, hcow, translate.eq_1 ms (alignDown addr), hpt, ht]
    case refine_2 =>
      rintro ⟨_, area', page', pte', hc', hpage', ht', _, hpermits⟩
      obtain ⟨page'', hpage'', hpte⟩ := translate_backs hw hb hc' ht'
      rw [hc, Option.some.injEq, Prod.mk.injEq] at hc'
      rw [← hc'.2, hpage, Option.some.injEq] at hpage''
      exact not_permits_store (hpage'' ▸ hstate) hpte hpermits
  case none =>
    have hd : Derived [area] (fun _ _ => True) (fun _ => True) (fun _ _ => True)
      area.backing.isPrivate area.flags page := .inl trivial
    obtain ⟨hr, hp⟩ := setAndMapPage_resolved ms i hl hwa hpage' (fun _ _ => rfl) hd
    refine ⟨ms.setAndMapPage i area ((alignDown addr - area.startVa) / pageSize), frames, ?_, ?_⟩
    case refine_1 =>
      simp [handlePageFault, hc, hl, accessAllowed, hwrite, hcow, translate.eq_1 ms (alignDown addr), hpt, ht, hpage']
    case refine_2 =>
      rintro ⟨_, area', page', pte', hc', hpage', ht', _, hpermits⟩
      have ht := hp.translate hr.step.wf hrange.1
      rw [ht'] at ht
      exact not_permits_store hstate ht.symm hpermits

theorem not_serves_of_starvedWindow (env : Env) (hw : ms.WF) (hb : Backed ms.pageTable ms.areas)
    (hc : ms.areaContaining addr = some (i, area))
    (hallow : accessAllowed area.flags access.isStore access.isExec)
    (h : starvedWindow frames area addr) :
    ∃ ms' frames', handlePageFault env ms frames addr access.isStore access.isExec = .ok (ms', frames') ∧
    ¬ms'.Serves addr access := by
  obtain ⟨hi, hrange⟩ := areaContaining_sound hc
  have hwa := hw.areas area (areaContaining_mem hc)
  simp only [starvedWindow, Bool.and_eq_true, Bool.not_eq_true', decide_eq_true_eq,
    Option.isNone_iff_eq_none, List.isEmpty_eq_false_iff] at h
  obtain ⟨⟨⟨⟨⟨hanon, hcow⟩, hexec⟩, hnone⟩, hsupply⟩, hlen⟩ := h
  have hl : area.flags.hasLeafPermission := by
    simp only [accessAllowed] at hallow
    split at hallow
    case isTrue => simp [PTEFlags.hasLeafPermission, hallow]
    case isFalse => split at hallow <;> simp [PTEFlags.hasLeafPermission, hallow]
  have ht : ms.translate addr = none := by
    cases ht : ms.translate addr
    case none => rfl
    case some pte =>
      obtain ⟨page, hpage, _⟩ := translate_backs hw hb hc ht
      rw [← hwa.index_alignDown hrange.1, hnone] at hpage
      cases hpage
  have hpt : ms.pageTable (alignDown addr / pageSize) = ms.translate addr := by
    rw [translate, alignDown_div]
  obtain ⟨ms', frames', resident, he, _, hres, _, hkeep⟩ :=
    anonymousFault_ok (fun _ => True) (fun _ _ => True) hw.areas hc hl rfl hnone hsupply
  refine ⟨ms', frames', ?_, ?_⟩
  case refine_1 =>
    simp [handlePageFault, hc, hl, hallow, hcow, hexec, translate.eq_1 ms (alignDown addr), hpt, ht,
      hnone, hanon, he]
  case refine_2 =>
    rintro ⟨_, _, _, pte, _, _, ht', _⟩
    have hkept := hkeep hlen
    rw [hwa.index_eq hrange.1] at hkept
    simp only [translate] at ht ht'
    rw [hkept, ht] at ht'
    cases ht'

theorem handlePageFault_refused (hc : ms.areaContaining addr = some (i, area))
    (hallow : ¬accessAllowed area.flags access.isStore access.isExec) :
    handlePageFault env ms frames addr access.isStore access.isExec = .error .EFAULT := by
  simp [handlePageFault, hc, hallow]

-- The page fault handler makes progress except in two cases.
theorem progress_iff (hw : ms.WF) (hb : Backed ms.pageTable ms.areas)
    (hu : ∀ a ∈ ms.areas, a.flags.u) (henv : env.Lawful cached) :
    Progress env ms frames addr access ↔
    ∀ i area, ms.areaContaining addr = some (i, area) →
      ¬(access = .store ∧ staleCowPage area addr) ∧
      ¬(accessAllowed area.flags access.isStore access.isExec ∧ starvedWindow frames area addr) := by
  constructor
  case mp =>
    intro h i area hc
    constructor
    case left =>
      rintro ⟨rfl, hstale⟩
      have ⟨ms', frames', hok, hns⟩ := not_serves_of_staleCowPage env frames hw hb hc hstale
      exact hns (h.served ms' frames' hok)
    case right =>
      rintro ⟨hallow, hstarved⟩
      have ⟨ms', frames', hok, hns⟩ := not_serves_of_starvedWindow env hw hb hc hallow hstarved
      exact hns (h.served ms' frames' hok)
  case mpr =>
    intro h
    exact {
      served := fun ms' frames' hok => serves_of_handled hw hb hu henv h hok
      refused := fun i area hc hallow => ⟨_, handlePageFault_refused hc hallow⟩
    }

end MemorySet

end WllOs
