import WllOs.Mm.Theorems.Step

namespace WllOs

variable {areas pre rest : List MapArea} {area : MapArea}
variable {pageTable : PageTable} {refCount : Ppn → Nat}
variable {vpn n start stop : Nat} {page : ResidentPage} {pte : Pte} {flags : PTEFlags}
variable {ms ms' : MemorySet}
variable {fresh : Bool → Ppn → Prop} {cached : Ppn → Prop} {grant : Bool → Ppn → Prop}

theorem MapArea.WF.setFlags (h : area.WF) (flags : PTEFlags) : { area with flags }.WF where
  start_aligned := h.start_aligned
  end_aligned   := h.end_aligned
  start_lt_end  := h.start_lt_end
  end_le_max    := h.end_le_max
  resident      := h.resident
  index_lt      := h.index_lt
  cow_private   := h.cow_private

theorem MapArea.WF.pageAt_eq_none (h : area.WF) (vpn : Nat) (hf : ¬area.hasFrames) : area.pageAt vpn = none := by
  have hnew : area.resident = .new := by
    simpa [MapArea.hasFrames, h.resident.isEmpty_iff] using hf
  simp [MapArea.pageAt, hnew]

theorem MapArea.not_backs_of_none (h : area.pageAt vpn = none) : ¬area.Backs vpn pte := by
  rintro ⟨_, page, hp, _⟩
  rw [h] at hp
  cases hp

theorem Derived.of_lookup (h : area.resident.lookup n = some page) :
    Derived [area] fresh cached grant area.backing.isPrivate area.flags page :=
  .of_owns ⟨area, by simp, rfl, rfl, n, h⟩

theorem AreaStep.refl (h : area.WF) : AreaStep fresh cached grant area area pageTable pageTable where
  wf                := h
  user              := id
  backed _ _ he     := (Classical.em _).imp_right fun hn => ⟨he, hn⟩
  derived _ _ hn    := .of_lookup hn

namespace MemorySet

@[simp]
theorem protectedFlags_withoutCow : (protectedFlags refCount flags area).withoutCow = flags.withoutCow := by
  simp only [protectedFlags]
  split <;> rfl

@[simp]
theorem protectedFlags_w : (protectedFlags refCount flags area).w = flags.w := by
  simp only [protectedFlags]
  split <;> rfl

@[simp]
theorem protectedFlags_u : (protectedFlags refCount flags area).u = flags.u := by
  simp only [protectedFlags]
  split <;> rfl

theorem protectArea_area (hc : area.flags.withoutCow ≠ flags) :
    (protectArea refCount flags area pageTable).1 = { area with flags := protectedFlags refCount flags area } := by
  simp only [protectArea, hc, ite_false]
  split
  case isTrue => split <;> rfl
  case isFalse => rfl

theorem protectArea_step (h : area.WF) (hu : flags.u)
    (hg : area.flags.withoutCow ≠ flags → ∀ n page, area.resident.lookup n = some page →
      Exposed area.backing.isPrivate flags page → grant area.backing.isPrivate page.frame) :
    AreaStep fresh cached grant area (protectArea refCount flags area pageTable).1 pageTable
      (protectArea refCount flags area pageTable).2 := by
  by_cases hc : area.flags.withoutCow = flags
  case pos =>
    simp only [protectArea, hc, ite_true]
    exact .refl h
  case neg =>
    have hw := h.setFlags (protectedFlags refCount flags area)
    rw [protectArea_area hc]
    refine ⟨hw, fun _ => by simpa using hu, fun vpn pte he => ?_, fun n page hn => ?_⟩
    case refine_1 =>
      simp only [protectArea, hc, ite_false] at he
      split at he
      case isTrue hf =>
        split at he
        case isTrue hl =>
          dsimp only at he
          rw [mapAreaPages_apply hw hl] at he
          have heq : MapArea.pageAt { area with flags := protectedFlags refCount flags area } vpn =
            area.pageAt vpn := rfl
          cases hp : area.pageAt vpn
          case none =>
            rw [heq, hp] at he
            exact .inr ⟨he, MapArea.not_backs_of_none hp⟩
          case some page =>
            rw [heq, hp] at he
            exact .inl ⟨hl, page, hp, he⟩
        case isFalse hl =>
          have hold : area.flags.hasLeafPermission := by simp_all
          dsimp only at he
          rw [unmapAreaPages_apply hw hold] at he
          split at he
          case isTrue => cases he
          case isFalse hp =>
            exact .inr ⟨he, MapArea.not_backs_of_none (Option.not_isSome_iff_eq_none.mp hp)⟩
      case isFalse hf =>
        refine .inr ⟨he, fun hb => ?_⟩
        have ⟨hl, page, hp, _⟩ := hb
        have hframes : ¬area.hasFrames := fun hfr => hf (by
          show (area.hasFrames && _) = true
          simp [hfr, hl])
        rw [h.pageAt_eq_none _ hframes] at hp
        cases hp
    case refine_2 =>
      refine .inr (.inr ⟨area.flags, page, ⟨area, by simp, rfl, rfl, n, hn⟩, rfl, fun hx => .inr ?_⟩)
      exact hg hc n page hn ⟨by simpa using hx.1, hx.2⟩

-- The areas that `protect_range` visits.
theorem protectAreas_step (refCount : Ppn → Nat) (stop : Nat) (areas : List MapArea) (hu : flags.u)
    (hg : ∀ area ∈ areas.takeWhile (·.startVa < stop), area.flags.withoutCow ≠ flags →
      ∀ n page, area.resident.lookup n = some page →
        Exposed area.backing.isPrivate flags page → grant area.backing.isPrivate page.frame)
    {all pre : List MapArea} {pageTable : PageTable} (hall : all = pre ++ areas) :
    Step fresh cached grant ⟨pageTable, all⟩
      ⟨(protectAreas refCount flags stop areas pageTable).2,
        pre ++ (protectAreas refCount flags stop areas pageTable).1⟩ := by
  subst hall
  induction areas generalizing pre pageTable
  case nil => exact .refl _
  case cons area rest hi =>
    by_cases hlt : area.startVa < stop
    case neg =>
      simp only [protectAreas, hlt, ite_false]
      exact .refl _
    case pos =>
      simp only [protectAreas, hlt, ite_true]
      have htw : (area :: rest).takeWhile (·.startVa < stop) =
          area :: rest.takeWhile (·.startVa < stop) := List.takeWhile_cons_of_pos (by simpa)
      rw [htw] at hg
      have ⟨harea, hrest⟩ := List.forall_mem_cons.mp hg
      have h₁ : Step fresh cached grant ⟨pageTable, pre ++ area :: rest⟩
          ⟨(protectArea refCount flags area pageTable).2,
            pre ++ (protectArea refCount flags area pageTable).1 :: rest⟩ :=
        AreaStep.step (fun hw => protectArea_step hw hu harea) pre rest
      refine h₁.trans ?_
      have h₂ := @hi hrest (pre ++ [(protectArea refCount flags area pageTable).1])
        (protectArea refCount flags area pageTable).2
      simpa only [List.append_assoc, List.singleton_append] using h₂

theorem splitAreaAt_step (addr : Nat) : Step fresh cached grant ms (ms.splitAreaAt addr) := by
  have he : ms.splitAreaAt addr = ⟨ms.pageTable, (ms.splitAreaAt addr).areas⟩ := by
    rw [← splitAreaAt_pageTable]
  rw [he]
  exact .rearranged splitAreaAt_rearranged

theorem coalesceAreas_step : Step fresh cached grant ms ms.coalesceAreas := by
  have he : ms.coalesceAreas = ⟨ms.pageTable, ms.coalesceAreas.areas⟩ := by
    rw [← coalesceAreas_pageTable]
  rw [he]
  exact .rearranged coalesceAreas_rearranged

theorem coalesceChangedRange_step : Step fresh cached grant ms (ms.coalesceChangedRange start stop) := by
  have he : ms.coalesceChangedRange start stop =
      ⟨ms.pageTable, (ms.coalesceChangedRange start stop).areas⟩ := by
    rw [← coalesceChangedRange_pageTable]
  rw [he]
  exact .rearranged coalesceChangedRange_rearranged

theorem protectRange_step (hu : flags.u) (h : protectRange refCount ms start stop flags = .ok ms')
    (hg : ms.rangeCovered start stop → ∀ area ∈ ms.visitedAreas start stop,
      area.flags.withoutCow ≠ flags → ∀ n page, area.resident.lookup n = some page →
        Exposed area.backing.isPrivate flags page → grant area.backing.isPrivate page.frame) :
    Step fresh cached grant ms ms' := by
  simp only [protectRange] at h
  split at h
  case isTrue => cases h
  case isFalse =>
    split at h
    case isTrue => cases h
    case isFalse hc =>
      split at h
      case isTrue => cases h; exact .refl _
      case isFalse =>
        cases h
        refine ((splitAreaAt_step start).trans (splitAreaAt_step stop)).trans
          (.trans ?_ coalesceChangedRange_step)
        exact protectAreas_step refCount stop _ hu (hg (by simpa using hc)) (List.take_append_drop ..).symm

-- An area is dropped together with the entries that it published.
theorem dropArea_step (pre post : List MapArea) (pageTable : PageTable) :
    Step fresh cached grant ⟨pageTable, pre ++ area :: post⟩
      ⟨unmapAreaPages pageTable area area.flags, pre ++ post⟩ where
  wf hw a ha := hw a (by
    simp only [List.mem_append, List.mem_cons] at ha ⊢
    exact ha.imp_right .inr)
  user _ hu a ha := hu a (by
    simp only [List.mem_append, List.mem_cons] at ha ⊢
    exact ha.imp_right .inr)
  backed hw hb vpn pte he := by
    have harea := hw area (by simp)
    have ⟨hold, hnot⟩ : pageTable vpn = some pte ∧ ¬area.Backs vpn pte := by
      by_cases hl : area.flags.hasLeafPermission
      case pos =>
        dsimp only at he
        rw [unmapAreaPages_apply harea hl] at he
        split at he
        case isTrue => cases he
        case isFalse hp => exact ⟨he, MapArea.not_backs_of_none (Option.not_isSome_iff_eq_none.mp hp)⟩
      case neg => exact ⟨by rwa [unmapAreaPages_eq hl] at he, fun hb => hl hb.1⟩
    have ⟨a, ha, hbacks⟩ := hb vpn pte hold
    simp only [List.mem_append, List.mem_cons] at ha
    rcases ha with ha | rfl | ha
    · exact ⟨a, by simp [ha], hbacks⟩
    · exact absurd hbacks hnot
    · exact ⟨a, by simp [ha], hbacks⟩
  derived _ _ _ _ ho := .of_owns (by
    simp only [Owns.append, Owns.cons] at ho ⊢
    exact ho.imp_right .inr)

theorem unmapAreas_step (areas pre : List MapArea) (pageTable : PageTable) :
    Step fresh cached grant ⟨pageTable, pre ++ areas⟩
      ⟨(unmapAreas start stop areas pageTable).2, pre ++ (unmapAreas start stop areas pageTable).1⟩ := by
  induction areas generalizing pre pageTable
  case nil => exact .refl _
  case cons area rest hi =>
    by_cases ho : area.overlaps start stop
    case pos =>
      simp only [unmapAreas, ho, ite_true]
      exact (dropArea_step pre rest pageTable).trans (hi pre _)
    case neg =>
      simp only [unmapAreas, ho, Bool.false_eq_true, ite_false]
      have h := hi (pre ++ [area]) pageTable
      simpa only [List.append_assoc, List.singleton_append] using h

theorem unmapRange_step (h : ms.unmapRange start stop = .ok ms') : Step fresh cached grant ms ms' := by
  simp only [unmapRange] at h
  split at h
  case isTrue => cases h
  case isFalse =>
    cases h
    refine ((splitAreaAt_step start).trans (splitAreaAt_step stop)).trans
      (.trans ?_ coalesceAreas_step)
    exact unmapAreas_step _ [] _

theorem releaseUserAreas_step : Step fresh cached grant ms ms.releaseUserAreas := by
  have h : ∀ (areas : List MapArea) (pageTable : PageTable), Step fresh cached grant ⟨pageTable, areas⟩
      ⟨areas.foldl (fun pageTable area => unmapAreaPages pageTable area area.flags) pageTable, []⟩ := by
    intro areas
    induction areas
    case nil => exact fun _ => .refl _
    case cons area rest hi =>
      exact fun pageTable => (dropArea_step [] rest pageTable).trans (hi _)
  exact h ms.areas ms.pageTable

theorem extractArea_step {resident : ResidentSet} (h : area.WF) {lo up : Nat}
    (hw : { area with resident }.WF)
    (hl : ∀ n, resident.lookup n = if lo ≤ n ∧ n < up then none else area.resident.lookup n) :
    AreaStep fresh cached grant area { area with resident } pageTable
      (unmapAreaResidentRange pageTable area lo up) where
  wf   := hw
  user := id
  backed vpn pte he := by
    by_cases hleaf : area.flags.hasLeafPermission
    case neg =>
      simp only [unmapAreaResidentRange, hleaf, Bool.not_false, Bool.true_or, ite_true] at he
      exact .inr ⟨he, fun hb => hleaf hb.1⟩
    case pos =>
      by_cases hlt : lo ≥ up
      case pos =>
        simp only [unmapAreaResidentRange, hleaf, hlt, decide_true, Bool.or_true, ite_true] at he
        have hsame : { area with resident }.pageAt vpn = area.pageAt vpn := by
          simp only [MapArea.pageAt, hl]
          split
          case isTrue => rw [if_neg (by omega)]
          case isFalse => rfl
        refine (Classical.em (area.Backs vpn pte)).imp ?_ fun hn => ⟨he, hn⟩
        rintro ⟨hlf, page, hp, hpte⟩
        exact ⟨hlf, page, hsame ▸ hp, hpte⟩
      case neg =>
        simp only [unmapAreaResidentRange, hleaf, hlt, Bool.not_true, decide_false, Bool.or_self,
          Bool.false_eq_true, ite_false] at he
        rw [unmapEntries_apply h] at he
        split at he
        case isTrue => cases he
        case isFalse hn =>
          refine (Classical.em (area.Backs vpn pte)).imp ?_ fun hn => ⟨he, hn⟩
          rintro ⟨hlf, page, hp, hpte⟩
          refine ⟨hlf, page, ?_, hpte⟩
          obtain ⟨n, heq, hn'⟩ := MapArea.pageAt_eq_some.mp hp
          rw [hp] at hn
          refine MapArea.pageAt_eq_some.mpr ⟨n, heq, ?_⟩
          rw [hl, if_neg]
          · exact hn'
          · exact fun hb => hn ⟨rfl, by omega, by omega⟩
  derived n page hn := by
    rw [hl] at hn
    split at hn
    case isTrue => cases hn
    case isFalse => exact .of_lookup hn

theorem discardArea_step (h : area.WF) (hr : start ≤ stop) :
    AreaStep fresh cached grant area (discardArea start stop area pageTable).1 pageTable
      (discardArea start stop area pageTable).2.1 := by
  by_cases hs : !area.overlaps start stop || area.backing ≠ .anonymous
  case pos =>
    simp only [discardArea, hs, ite_true]
    exact .refl h
  case neg =>
    have hlt := h.start_lt_end
    have hle : (max start area.startVa - area.startVa) / pageSize ≤
        (min stop area.endVa - area.startVa) / pageSize := by
      simp only [MapArea.overlaps, Bool.or_eq_true, not_or] at hs
      simp only [Bool.not_eq_true, Bool.not_eq_false', Bool.and_eq_true, decide_eq_true_eq] at hs
      exact Nat.div_le_div_right (by omega)
    have ⟨resident, owner, he, hw, _, hl, _⟩ := MapArea.extractResidentRange_ok h hle
    simp only [discardArea, hs, Bool.false_eq_true, ite_false, he]
    exact extractArea_step h hw hl

theorem discardAreas_step (hr : start ≤ stop) (areas pre : List MapArea) (pageTable : PageTable) :
    Step fresh cached grant ⟨pageTable, pre ++ areas⟩
      ⟨(discardAreas start stop areas pageTable).2.1,
        pre ++ (discardAreas start stop areas pageTable).1⟩ := by
  induction areas generalizing pre pageTable
  case nil => exact .refl _
  case cons area rest hi =>
    have h₁ : Step fresh cached grant ⟨pageTable, pre ++ area :: rest⟩
        ⟨(discardArea start stop area pageTable).2.1,
          pre ++ (discardArea start stop area pageTable).1 :: rest⟩ :=
      AreaStep.step (fun hw => discardArea_step hw hr) pre rest
    refine h₁.trans ?_
    have h₂ := hi (pre ++ [(discardArea start stop area pageTable).1])
      (discardArea start stop area pageTable).2.1
    simpa only [discardAreas, List.append_assoc, List.singleton_append] using h₂

theorem discardAnonymousRange_step {discarded : Nat}
    (h : ms.discardAnonymousRange start stop = .ok (ms', discarded)) :
    Step fresh cached grant ms ms' := by
  simp only [discardAnonymousRange] at h
  split at h
  case isTrue => cases h
  case isFalse hr =>
    split at h
    case isTrue => cases h
    case isFalse =>
      cases h
      have hle : start ≤ stop := by
        simp only [Bool.or_eq_true, decide_eq_true_eq, not_or] at hr
        omega
      exact discardAreas_step hle _ [] _

end MemorySet

end WllOs
