import WllOs.Mm.Theorems.Areas

namespace WllOs

variable {areas areas' : List MapArea} {area area' : MapArea} {pageTable pageTable' : PageTable}
variable {vpn n : Nat} {view : PageView} {page : ResidentPage} {pte : Pte} {flags : PTEFlags}
variable {ms ms' ms'' : MemorySet} {isPrivate : Bool}
variable {fresh : Bool → Ppn → Prop} {cached : Ppn → Prop} {grant : Bool → Ppn → Prop}

theorem MapArea.WF.backs_iff (h : area.WF) : area.Backs vpn pte ↔
    ∃ view, area.view vpn = some view ∧ view.flags.hasLeafPermission ∧
    ∃ page, view.page = some page ∧ pteOf view.flags page = some pte := by
  constructor
  case mp =>
    rintro ⟨hl, page, hp, he⟩
    exact ⟨_, h.view_of_pageAt hp, hl, page, rfl, he⟩
  case mpr =>
    rintro ⟨view, hv, hl, page, hp, he⟩
    have hpage := h.view_page vpn
    rw [hv, Option.bind_some, hp] at hpage
    have ⟨_, _, hview⟩ := view_eq_some.mp hv
    subst hview
    exact ⟨hl, page, hpage.symm, he⟩

theorem MapArea.WF.owns_iff (h : area.WF) :
    (area.backing.isPrivate = isPrivate ∧ area.flags = flags ∧ ∃ n, area.resident.lookup n = some page) ↔
    ∃ vpn view, area.view vpn = some view ∧ view.backing.isPrivate = isPrivate ∧ view.flags = flags ∧
      view.page = some page := by
  constructor
  case mp =>
    rintro ⟨hb, hf, n, hn⟩
    have hp : area.pageAt (area.startVa / pageSize + n) = some page := by rw [pageAt_add, hn]
    exact ⟨_, _, h.view_of_pageAt hp, by simpa using hb, hf, rfl⟩
  case mpr =>
    rintro ⟨vpn, view, hv, hb, hf, hp⟩
    have ⟨_, _, hview⟩ := view_eq_some.mp hv
    subst hview
    exact ⟨by simpa using hb, hf, _, hp⟩

theorem MapArea.WF.exists_view (h : area.WF) : ∃ vpn view, area.view vpn = some view ∧
    view.flags = area.flags := by
  refine ⟨area.startVa / pageSize, _, view_eq_some.mpr ⟨?_, ?_, rfl⟩, rfl⟩
  all_goals
    have := h.start_aligned
    have := h.start_lt_end
    simp only [pageSize] at *
    omega

theorem Owns.views (hw : ∀ a ∈ areas, a.WF) : Owns areas isPrivate flags page ↔
    ∃ vpn view, Views areas vpn view ∧ view.backing.isPrivate = isPrivate ∧ view.flags = flags ∧
      view.page = some page := by
  constructor
  case mp =>
    rintro ⟨area, hm, ho⟩
    have ⟨vpn, view, hv, hr⟩ := (hw area hm).owns_iff.mp ho
    exact ⟨vpn, view, ⟨area, hm, hv⟩, hr⟩
  case mpr =>
    rintro ⟨vpn, view, ⟨area, hm, hv⟩, hr⟩
    exact ⟨area, hm, (hw area hm).owns_iff.mpr ⟨vpn, view, hv, hr⟩⟩

theorem Owns.append : Owns (areas ++ areas') isPrivate flags page ↔
    Owns areas isPrivate flags page ∨ Owns areas' isPrivate flags page := by
  simp [Owns, or_and_right, exists_or]

theorem Owns.cons : Owns (area :: areas) isPrivate flags page ↔
    (area.backing.isPrivate = isPrivate ∧ area.flags = flags ∧ ∃ n, area.resident.lookup n = some page) ∨
    Owns areas isPrivate flags page := by
  simp [Owns]

theorem Derived.of_owns (h : Owns areas isPrivate flags page) :
    Derived areas fresh cached grant isPrivate flags page :=
  .inr (.inr ⟨flags, page, h, rfl, .inl⟩)

theorem Derived.trans (h : Derived areas' fresh cached grant isPrivate flags page)
    (ha : ∀ isPrivate flags page, Owns areas' isPrivate flags page →
      Derived areas fresh cached grant isPrivate flags page) :
    Derived areas fresh cached grant isPrivate flags page := by
  rcases h with h | h | ⟨flags', page', ho, hf, he⟩
  case inl => exact .inl h
  case inr.inl => exact .inr (.inl h)
  case inr.inr =>
    rcases ha _ _ _ ho with h | ⟨hc, hx'⟩ | ⟨flags'', page'', ho', hf', he'⟩
    case inl => exact .inl (hf ▸ h)
    case inr.inl => exact .inr (.inl ⟨hf ▸ hc, fun hx => (he hx).elim (fun h => hf ▸ hx' h) id⟩)
    case inr.inr =>
      exact .inr (.inr ⟨flags'', page'', ho', hf'.trans hf, fun hx =>
        (he hx).elim (fun h => (he' h).imp_right (hf ▸ ·)) .inr⟩)

theorem Derived.mono {areas' : List MapArea} (h : Derived areas fresh cached grant isPrivate flags page)
    (ha : ∀ flags page, Owns areas isPrivate flags page → Owns areas' isPrivate flags page) :
    Derived areas' fresh cached grant isPrivate flags page :=
  h.imp_right <| .imp_right fun ⟨flags', page', ho, hr⟩ => ⟨flags', page', ha _ _ ho, hr⟩

namespace Rearranged

theorem owns (h : Rearranged areas areas') (hw : ∀ a ∈ areas, a.WF) :
    Owns areas' isPrivate flags page ↔ Owns areas isPrivate flags page := by
  simp only [Owns.views hw, Owns.views (h.wf hw), h.views hw]

theorem backed (h : Rearranged areas areas') (hw : ∀ a ∈ areas, a.WF) (hb : Backed pageTable areas) :
    Backed pageTable areas' := by
  intro vpn pte he
  have ⟨area, hm, hbacks⟩ := hb vpn pte he
  have ⟨view, hv, hr⟩ := (hw area hm).backs_iff.mp hbacks
  have ⟨area', hm', hv'⟩ := (h.views hw vpn view).mpr ⟨area, hm, hv⟩
  exact ⟨area', hm', (h.wf hw area' hm').backs_iff.mpr ⟨view, hv', hr⟩⟩

theorem flags_eq (h : Rearranged areas areas') (hw : ∀ a ∈ areas, a.WF) (ha : area' ∈ areas') :
    ∃ area ∈ areas, area.flags = area'.flags := by
  have ⟨vpn, view, hv, hf⟩ := (h.wf hw area' ha).exists_view
  have ⟨area, hm, hv'⟩ := (h.views hw vpn view).mp ⟨area', ha, hv⟩
  have ⟨_, _, hview⟩ := MapArea.view_eq_some.mp hv'
  exact ⟨area, hm, by rw [← hf, hview]⟩

end Rearranged

namespace Step

theorem refl (ms : MemorySet) : Step fresh cached grant ms ms where
  wf      := id
  user    := fun _ => id
  backed  := fun _ => id
  derived := fun _ _ _ _ => .of_owns

theorem trans (h : Step fresh cached grant ms ms') (h' : Step fresh cached grant ms' ms'') :
    Step fresh cached grant ms ms'' where
  wf hw               := h'.wf (h.wf hw)
  user hw hu          := h'.user (h.wf hw) (h.user hw hu)
  backed hw hb        := h'.backed (h.wf hw) (h.backed hw hb)
  derived hw _ _ _ ho := (h'.derived (h.wf hw) _ _ _ ho).trans (h.derived hw)

theorem rearranged (h : Rearranged areas areas') :
    Step fresh cached grant ⟨pageTable, areas⟩ ⟨pageTable, areas'⟩ where
  wf                  := h.wf
  user hw hu _ ha     := have ⟨b, hb, hf⟩ := h.flags_eq hw ha; hf ▸ hu b hb
  backed              := h.backed
  derived hw _ _ _ ho := .of_owns ((h.owns hw).mp ho)

end Step

-- A change of a single area together with the page table. The entries that the area published before
-- are gone or published by the changed area.
structure AreaStep (fresh : Bool → Ppn → Prop) (cached : Ppn → Prop) (grant : Bool → Ppn → Prop)
    (area area' : MapArea) (pageTable pageTable' : PageTable) : Prop where
  wf      : area'.WF
  user    : area.flags.u → area'.flags.u
  backed  : ∀ vpn pte, pageTable' vpn = some pte →
              area'.Backs vpn pte ∨ (pageTable vpn = some pte ∧ ¬area.Backs vpn pte)
  derived : ∀ n page, area'.resident.lookup n = some page →
              Derived [area] fresh cached grant area'.backing.isPrivate area'.flags page

theorem AreaStep.step (h : area.WF → AreaStep fresh cached grant area area' pageTable pageTable')
    (pre post : List MapArea) :
    Step fresh cached grant ⟨pageTable, pre ++ area :: post⟩ ⟨pageTable', pre ++ area' :: post⟩ where
  wf hw := by
    have harea := h (hw area (by simp))
    intro a ha
    simp only [List.mem_append, List.mem_cons] at ha
    rcases ha with ha | rfl | ha
    · exact hw a (by simp [ha])
    · exact harea.wf
    · exact hw a (by simp [ha])
  user hw hu := by
    have harea := h (hw area (by simp))
    intro a ha
    simp only [List.mem_append, List.mem_cons] at ha
    rcases ha with ha | rfl | ha
    · exact hu a (by simp [ha])
    · exact harea.user (hu area (by simp))
    · exact hu a (by simp [ha])
  backed hw hb := by
    have harea := h (hw area (by simp))
    intro vpn pte he
    rcases harea.backed vpn pte he with hbacks | ⟨hold, hnot⟩
    case inl => exact ⟨area', by simp, hbacks⟩
    case inr =>
      have ⟨a, ha, hbacks⟩ := hb vpn pte hold
      simp only [List.mem_append, List.mem_cons] at ha
      rcases ha with ha | rfl | ha
      · exact ⟨a, by simp [ha], hbacks⟩
      · exact absurd hbacks hnot
      · exact ⟨a, by simp [ha], hbacks⟩
  derived hw isPrivate flags page ho := by
    have harea := h (hw area (by simp))
    simp only [Owns.append, Owns.cons] at ho
    rcases ho with ho | ⟨rfl, rfl, n, hn⟩ | ho
    · exact .of_owns (by simp [Owns.append, ho])
    · refine (harea.derived n page hn).mono fun flags page ho => ?_
      simp only [Owns.cons, Owns.append] at ho ⊢
      exact .inr (ho.imp_right fun h => by simp [Owns] at h)
    · exact .of_owns (by simp [Owns.append, Owns.cons, ho])

-- A new area and the entries that it publishes.
theorem Step.append (hw : area.WF) (hu : area.flags.u)
    (hb : ∀ vpn pte, pageTable' vpn = some pte → area.Backs vpn pte ∨ pageTable vpn = some pte)
    (hd : ∀ n page, area.resident.lookup n = some page → fresh area.backing.isPrivate page.frame) :
    Step fresh cached grant ⟨pageTable, areas⟩ ⟨pageTable', areas ++ [area]⟩ where
  wf hws a ha := by
    cases List.mem_append.mp ha
    case inl ha => exact hws a ha
    case inr ha => exact List.mem_singleton.mp ha ▸ hw
  user _ hus a ha := by
    cases List.mem_append.mp ha
    case inl ha => exact hus a ha
    case inr ha => exact List.mem_singleton.mp ha ▸ hu
  backed _ hbs vpn pte he := by
    cases hb vpn pte he
    case inl hbacks => exact ⟨area, by simp, hbacks⟩
    case inr hold =>
      have ⟨a, ha, hbacks⟩ := hbs vpn pte hold
      exact ⟨a, by simp [ha], hbacks⟩
  derived _ isPrivate flags page ho := by
    simp only [Owns.append, Owns.cons] at ho
    rcases ho with ho | ⟨rfl, rfl, n, hn⟩ | ho
    · exact .of_owns ho
    · exact .inl (hd n page hn)
    · simp [Owns] at ho

-- Entries may be taken away.
theorem Step.unmap (h : ∀ vpn pte, pageTable' vpn = some pte → pageTable vpn = some pte) :
    Step fresh cached grant ⟨pageTable, areas⟩ ⟨pageTable', areas⟩ where
  wf                   := id
  user                 := fun _ => id
  backed _ hb _ _ he   := hb _ _ (h _ _ he)
  derived _ _ _ _      := .of_owns

end WllOs
