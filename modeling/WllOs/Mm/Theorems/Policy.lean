import WllOs.Mm.Theorems.Syscall

namespace WllOs

variable {areas areas' : List MapArea} {area area' : MapArea} {start stop startVa endVa vpn : Nat}
variable {w : Bool} {backing : PageBacking} {ms ms' : MemorySet} {frames frames' : Frames}
variable {flags permission : PTEFlags}

-- What areas say about a page, apart from the frame that it has: whether it may be written, and what it is
-- backed by.
def PolicyAt (areas : List MapArea) (vpn : Nat) (w : Bool) (backing : PageBacking) : Prop :=
  ∃ view, Views areas vpn view ∧ view.flags.w = w ∧ view.backing = backing

theorem PolicyAt.append : PolicyAt (areas ++ areas') vpn w backing ↔
    PolicyAt areas vpn w backing ∨ PolicyAt areas' vpn w backing := by
  simp only [PolicyAt, Views.append, or_and_right, exists_or]

theorem PolicyAt.singleton : PolicyAt [area] vpn w backing ↔
    area.startVa ≤ vpn * pageSize ∧ vpn * pageSize < area.endVa ∧ area.flags.w = w ∧
      area.backing.page (vpn * pageSize - area.startVa) = backing := by
  simp only [PolicyAt, Views, List.mem_singleton, exists_eq_left, MapArea.view_eq_some]
  constructor
  case mp =>
    rintro ⟨view, ⟨h₁, h₂, rfl⟩, hw, hb⟩
    exact ⟨h₁, h₂, hw, hb⟩
  case mpr =>
    rintro ⟨h₁, h₂, hw, hb⟩
    exact ⟨_, ⟨h₁, h₂, rfl⟩, hw, hb⟩

theorem PolicyAt.cons : PolicyAt (area :: areas) vpn w backing ↔
    PolicyAt [area] vpn w backing ∨ PolicyAt areas vpn w backing := by
  rw [← List.singleton_append, PolicyAt.append]

theorem Rearranged.policyAt (h : Rearranged areas areas') (hw : ∀ a ∈ areas, a.WF) :
    PolicyAt areas' vpn w backing ↔ PolicyAt areas vpn w backing := by
  simp only [PolicyAt, h.views hw]

-- Areas that differ in their resident pages only.
structure SamePolicy (area area' : MapArea) : Prop where
  range   : area'.range = area.range
  backing : area'.backing = area.backing
  write   : area'.flags.w = area.flags.w

theorem SamePolicy.refl (area : MapArea) : SamePolicy area area :=
  ⟨rfl, rfl, rfl⟩

theorem SamePolicy.policyAt (h : List.Forall₂ SamePolicy areas areas') :
    PolicyAt areas' vpn w backing ↔ PolicyAt areas vpn w backing := by
  induction h
  case nil => rfl
  case cons area area' _ _ ha _ hi =>
    have ⟨hs, he⟩ := Prod.mk.inj ha.range
    rw [PolicyAt.cons, hi]
    conv => rhs; rw [PolicyAt.cons]
    simp only [PolicyAt.singleton, hs, he, ha.backing, ha.write]

theorem SamePolicy.set {i : Nat} (hi : areas[i]? = some area) (h : SamePolicy area area') :
    List.Forall₂ SamePolicy areas (areas.set i area') := by
  rw [Lists.set_split hi]
  conv => lhs; rw [Lists.split_at hi]
  exact List.rel_append (List.forall₂_same.mpr fun a _ => .refl a)
    (.cons h (List.forall₂_same.mpr fun a _ => .refl a))

namespace MemorySet

theorem unmapRange_policyAt (hw : ms.WF) (h : ms.unmapRange start stop = .ok ms') :
    PolicyAt ms'.areas vpn w backing ↔
    ¬(start ≤ vpn * pageSize ∧ vpn * pageSize < stop) ∧ PolicyAt ms.areas vpn w backing := by
  have ⟨_, hs, he⟩ := unmapRange_aligned h
  have hm := unmapRange_meaning hw hs he h vpn
  simp only [PolicyAt, ← hw.sorted.meaning_eq_some, ← (unmapRange_wf hw h).sorted.meaning_eq_some, hm]
  split
  case isTrue hr => simp [hr]
  case isFalse hr => simp [hr]

theorem protectRange_aligned {refCount : Ppn → Nat} (h : protectRange refCount ms start stop flags = .ok ms') :
    start < stop ∧ start % pageSize = 0 ∧ stop % pageSize = 0 := by
  simp only [protectRange] at h
  split at h
  case isTrue => cases h
  case isFalse hr =>
    simp only [Bool.or_eq_true, decide_eq_true_eq] at hr
    omega

-- A page of the range gets the new right and keeps its backing.
theorem protectRange_policyAt {refCount : Ppn → Nat} (hw : ms.WF) (hu : flags.u)
    (h : protectRange refCount ms start stop flags = .ok ms') :
    PolicyAt ms'.areas vpn w backing ↔
    if start ≤ vpn * pageSize ∧ vpn * pageSize < stop then
      flags.w = w ∧ ∃ w', PolicyAt ms.areas vpn w' backing
    else
      PolicyAt ms.areas vpn w backing := by
  have ⟨_, hs, he⟩ := protectRange_aligned h
  have hm := protectRange_meaning hw hs he h vpn
  simp only [PolicyAt, ← hw.sorted.meaning_eq_some, ← (protectRange_wf hw hu h).sorted.meaning_eq_some]
  split
  case isFalse hr => rw [hm.2 hr]
  case isTrue hr =>
    have hm := hm.1 hr
    cases hv : ms.meaning vpn
    case none =>
      rw [hv, Option.map_none, Option.map_eq_none_iff] at hm
      simp [hm]
    case some view =>
      rw [hv, Option.map_some, Option.map_eq_some_iff] at hm
      have ⟨view', hv', he⟩ := hm
      simp only [Prod.mk.injEq] at he
      have hfw : view'.flags.w = flags.w := withoutCow_w he.1
      simp [hv', hfw, he.2.1]

-- The pages of a new area.
def NewAt (permission : PTEFlags) (areaBacking : MapAreaBacking) (startVa endVa vpn : Nat) (w : Bool)
    (backing : PageBacking) : Prop :=
  ∃ start stop, pageRange startVa endVa = some (start, stop) ∧ start ≤ vpn * pageSize ∧
    vpn * pageSize < stop ∧ permission.w = w ∧ areaBacking.page (vpn * pageSize - start) = backing

theorem coalesceAppend_policyAt {pageTable : PageTable} (hw : ∀ a ∈ areas, a.WF) (ha : area.WF) :
    PolicyAt (coalesceAreas ⟨pageTable, areas ++ [area]⟩).areas vpn w backing ↔
    PolicyAt areas vpn w backing ∨ PolicyAt [area] vpn w backing := by
  rw [coalesceAreas_rearranged.policyAt, PolicyAt.append]
  intro a hm
  cases List.mem_append.mp hm
  case inl hm => exact hw a hm
  case inr hm => exact List.mem_singleton.mp hm ▸ ha

theorem newAt_iff (permission : PTEFlags) (areaBacking : MapAreaBacking) (hr : pageRange startVa endVa = some (start, stop))
    (hs : area.startVa = start) (he : area.endVa = stop) (hf : area.flags = permission)
    (hb : area.backing = areaBacking) :
    PolicyAt [area] vpn w backing ↔ NewAt permission areaBacking startVa endVa vpn w backing := by
  simp only [PolicyAt.singleton, NewAt, hr, Option.some.injEq, Prod.mk.injEq, hs, he, hf, hb]
  constructor
  case mp => exact fun h => ⟨start, stop, ⟨rfl, rfl⟩, h⟩
  case mpr =>
    rintro ⟨_, _, ⟨rfl, rfl⟩, h⟩
    exact h

theorem insertLazyAreaWithBacking_policyAt {areaBacking : MapAreaBacking} (hw : ms.WF)
    (h : ms.insertLazyAreaWithBacking startVa endVa permission areaBacking = .ok ms') :
    PolicyAt ms'.areas vpn w backing ↔
    PolicyAt ms.areas vpn w backing ∨ NewAt permission areaBacking startVa endVa vpn w backing := by
  simp only [insertLazyAreaWithBacking] at h
  split at h
  case h_1 => cases h
  case h_2 start stop hr =>
    cases h
    rw [coalesceAppend_policyAt hw.areas (withBacking_wf hr permission areaBacking),
      newAt_iff permission areaBacking hr rfl rfl rfl rfl]

-- A framed area is inserted as a whole or not at all.
theorem insertFramedAreaWithBacking_policyAt {areaBacking : MapAreaBacking} (frames : Frames) (hw : ms.WF)
    (hc : ¬permission.cow) :
    (∀ vpn w backing, PolicyAt (ms.insertFramedAreaWithBacking frames startVa endVa permission areaBacking).1.areas
      vpn w backing ↔ PolicyAt ms.areas vpn w backing) ∨
    ∀ vpn w backing, PolicyAt (ms.insertFramedAreaWithBacking frames startVa endVa permission areaBacking).1.areas
      vpn w backing ↔
      PolicyAt ms.areas vpn w backing ∨ NewAt permission areaBacking startVa endVa vpn w backing := by
  simp only [insertFramedAreaWithBacking]
  split
  case h_1 => exact .inl fun _ _ _ => .rfl
  case h_2 start stop hr =>
    have hwb := withBacking_wf hr permission areaBacking
    split
    case isTrue =>
      refine .inr fun vpn w backing => ?_
      rw [coalesceAppend_policyAt hw.areas hwb, newAt_iff permission areaBacking hr rfl rfl rfl rfl]
    case isFalse hl =>
      have hl : permission.hasLeafPermission := by simpa using hl
      cases insertArea_spec frames ms.pageTable areaBacking hr hl hc
      case inl h =>
        obtain ⟨_, _, _, heq, _⟩ := h
        rw [heq]
        exact .inl fun _ _ _ => .rfl
      case inr h =>
        obtain ⟨_, _, area, heq, hfill⟩ := h
        rw [heq]
        refine .inr fun vpn w backing => ?_
        rw [coalesceAppend_policyAt hw.areas (markShared_wf hfill.wf), newAt_iff permission areaBacking hr]
        case hs => rw [markShared_startVa, hfill.startVa]; rfl
        case he => rw [markShared_endVa, hfill.endVa]; rfl
        case hf => rw [markShared_flags, hfill.flags]; rfl
        case hb => rw [markShared_backing, hfill.backing]; rfl

theorem insertSharedFramedArea_policyAt {areaBacking : MapAreaBacking} {shared : List Ppn} (hw : ms.WF)
    (h : ms.insertSharedFramedArea startVa endVa permission areaBacking shared = .ok ms') :
    PolicyAt ms'.areas vpn w backing ↔
    PolicyAt ms.areas vpn w backing ∨ NewAt permission areaBacking startVa endVa vpn w backing := by
  simp only [insertSharedFramedArea] at h
  split at h
  case h_1 => cases h
  case h_2 start stop hr =>
    split at h
    case isTrue => cases h
    case isFalse hlen =>
      split at h
      case isTrue => cases h
      case isFalse =>
        have hwb := withBacking_wf hr permission areaBacking
        obtain ⟨resident, he, hw', _⟩ := MapArea.replaceResident_ok hwb (not_not.mp hlen)
        rw [he] at h
        cases h
        rw [coalesceAppend_policyAt hw.areas hw', newAt_iff permission areaBacking hr rfl rfl rfl rfl]

theorem insertSharedFramedArea_range {areaBacking : MapAreaBacking} {shared : List Ppn}
    (h : ms.insertSharedFramedArea startVa endVa permission areaBacking shared = .ok ms') :
    ∃ start stop, pageRange startVa endVa = some (start, stop) ∧ ms.rangeOverlaps start stop = false := by
  simp only [insertSharedFramedArea] at h
  split at h
  case h_1 => cases h
  case h_2 start stop hr =>
    split at h
    case isTrue => cases h
    case isFalse =>
      split at h
      case isTrue => cases h
      case isFalse ho => exact ⟨start, stop, hr, by simpa using ho⟩

theorem discardArea_same (pageTable : PageTable) :
    SamePolicy area (discardArea start stop area pageTable).1 := by
  refine ⟨discardArea_range, ?_, ?_⟩
  all_goals
    simp only [discardArea]
    split
    case isTrue => rfl
    case isFalse =>
      split
      case h_2 => rfl
      case h_1 he =>
        simp only [MapArea.extractResidentRange] at he
        cases hx : area.resident.extractRange ((max start area.startVa - area.startVa) / pageSize)
          ((min stop area.endVa - area.startVa) / pageSize)
        case error => rw [hx] at he; cases he
        case ok r => rw [hx] at he; cases r <;> (cases he; rfl)

theorem discardAreas_same (areas : List MapArea) (pageTable : PageTable) :
    List.Forall₂ SamePolicy areas (discardAreas start stop areas pageTable).1 := by
  induction areas generalizing pageTable
  case nil => exact .nil
  case cons area rest hi => exact .cons (discardArea_same pageTable) (hi _)

theorem discardAnonymousRange_policyAt {discarded : Nat}
    (h : ms.discardAnonymousRange start stop = .ok (ms', discarded)) :
    PolicyAt ms'.areas vpn w backing ↔ PolicyAt ms.areas vpn w backing := by
  simp only [discardAnonymousRange] at h
  split at h
  case isTrue => cases h
  case isFalse =>
    split at h
    case isTrue => cases h
    case isFalse =>
      cases h
      exact SamePolicy.policyAt (discardAreas_same ..)

theorem handlePageFault_policyAt {env : Env} {cached : Ppn → Prop} {addr : Nat} {isStore isExec : Bool}
    (hw : ms.WF) (henv : env.Lawful cached)
    (h : handlePageFault env ms frames addr isStore isExec = .ok (ms', frames')) :
    PolicyAt ms'.areas vpn w backing ↔ PolicyAt ms.areas vpn w backing := by
  have ⟨_, i, area, hc, _, hcases⟩ := handlePageFault_ok (fun _ _ => True) hw.areas henv h
  cases hcases
  case inl h => rw [h.1]
  case inr h =>
    have ⟨resident, hres, _⟩ := h
    rw [hres.areas]
    exact SamePolicy.policyAt (SamePolicy.set (areaContaining_sound hc).1 ⟨rfl, rfl, rfl⟩)

theorem forkCow_policyAt (frames : Frames) (hw : ms.WF) :
    PolicyAt (ms.forkCow frames).1.areas vpn w backing ↔ PolicyAt ms.areas vpn w backing :=
  SamePolicy.policyAt <| (forkCow_spec frames hw.areas).parent.imp fun _ _ h =>
    ⟨h.range, h.backing, withoutCow_w h.policy⟩

theorem forkCow_child_policyAt {child : MemorySet} (hw : ms.WF) (h : (ms.forkCow frames).2.2 = .ok child) :
    PolicyAt child.areas vpn w backing ↔ PolicyAt ms.areas vpn w backing := by
  have ⟨new, hnew, hforall, _⟩ := (forkCow_spec frames hw.areas).child child h
  rw [hnew, coalesceAreas_rearranged.policyAt fun a ha => ?_]
  case _ =>
    exact SamePolicy.policyAt <| hforall.imp fun _ _ h => ⟨h.range, h.backing, withoutCow_w h.policy⟩
  case _ =>
    have ⟨_, _, h⟩ := Lists.exists_of_mem_right hforall ha
    exact h.wf

theorem writeBytesFrom_policyAt (dst : Nat) (src : List UInt8) (fuel copied : Nat) (frames : Frames) :
    PolicyAt (writeBytesFrom dst src fuel copied ms frames).1.areas vpn w backing ↔
    PolicyAt ms.areas vpn w backing := by
  induction fuel generalizing copied ms frames
  case zero => rfl
  case succ fuel hi =>
    simp only [writeBytesFrom]
    split
    case isFalse => rfl
    case isTrue =>
      split
      case h_1 => rfl
      case h_2 =>
        split
        case h_1 => rfl
        case h_2 i area hc =>
          split
          case h_1 => rfl
          case h_2 =>
            rw [hi]
            refine SamePolicy.policyAt (SamePolicy.set (areaContaining_sound hc).1 ⟨markDirty_range _, ?_, ?_⟩)
            all_goals
              simp only [markDirty]
              split <;> rfl

end MemorySet

end WllOs
