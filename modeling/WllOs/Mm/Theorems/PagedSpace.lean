import WllOs.Mm.PagedSpace
import WllOs.Mm.Theorems.Elf

namespace WllOs

variable {tables tables' tables₀ : PageTables} {vpn vpn' n pages start stop startVa endVa : Nat} {ppn frame : Ppn}
variable {flags permission : PTEFlags} {backing : MapAreaBacking} {free free' free₀ frames : List Ppn}
variable {area area' : MapArea} {space space' : PagedSpace} {error : SysErrNo}

namespace PageTables

theorem SameEntry.symm (h : SameEntry vpn vpn') : SameEntry vpn' vpn :=
  Eq.symm h

theorem SameEntry.trans {vpn'' : Nat} (h : SameEntry vpn vpn') (h' : SameEntry vpn' vpn'') : SameEntry vpn vpn'' :=
  Eq.trans h h'

-- What a mapping does to the translations, to the tables and to the free frames.
theorem mapPage_spec {flags : MappingFlags} (h : tables.mapPage vpn ppn flags free = some (tables', free')) :
    (∀ vpn', SameEntry vpn' vpn → tables'.translate vpn' = if flags.isEmpty then none else some ⟨ppn, flags⟩) ∧
    (∀ vpn', ¬SameEntry vpn' vpn → tables'.translate vpn' = tables.translate vpn') ∧
    TableTree.Extends 2 tables tables' ∧
    ∃ taken, free = taken ++ free' ∧ ∀ frame ∈ taken, TableTree.Holds 2 tables' frame :=
  ⟨fun _ => (TableTree.lookup_map h).1, fun _ => (TableTree.lookup_map h).2, TableTree.map_extends h,
    TableTree.map_supply h⟩

theorem unmapPages_extends (vpns : List Nat) : TableTree.Extends 2 tables (tables.unmapPages vpns) := by
  induction vpns generalizing tables
  case nil => exact .refl _
  case cons vpn vpns hi => exact TableTree.unmap_extends.trans (@hi (tables.unmapPage vpn))

theorem translate_unmapPages {vpns : List Nat} :
    ((∃ vpn' ∈ vpns, SameEntry vpn vpn') → (tables.unmapPages vpns).translate vpn = none) ∧
    ((∀ vpn' ∈ vpns, ¬SameEntry vpn vpn') → (tables.unmapPages vpns).translate vpn = tables.translate vpn) := by
  induction vpns generalizing tables
  case nil => exact ⟨by simp, fun _ => rfl⟩
  case cons head vpns hi =>
    have ⟨hsame, hother⟩ := @hi (tables.unmapPage head)
    have ⟨hclear, hkeep⟩ := TableTree.lookup_unmap pteNumInPage tables head vpn
    constructor
    case left =>
      intro hex
      by_cases hrest : ∃ vpn' ∈ vpns, SameEntry vpn vpn'
      case pos => exact hsame hrest
      case neg =>
        simp only [not_exists, not_and] at hrest
        have ⟨vpn', hm, hv⟩ := hex
        rcases List.mem_cons.mp hm with rfl | hm
        case inl => exact (hother hrest).trans (hclear hv)
        case inr => exact absurd hv (hrest vpn' hm)
    case right =>
      intro hall
      have ⟨hhead, hrest⟩ := List.forall_mem_cons.mp hall
      exact (hother hrest).trans (hkeep hhead)

end PageTables

namespace PagedSpace

open PageTables (SameEntry)

-- What the loop of `insert_framed_area_with_backing` keeps. The first `n` pages of the area are resident, and the frames
-- that were taken besides theirs hold tables.
structure Filling (tables₀ : PageTables) (free₀ : List Ppn) (area₀ : MapArea) (n : Nat) (tables : PageTables)
    (area : MapArea) (free : List Ppn) : Prop where
  wf           : area.WF
  startVa      : area.startVa = area₀.startVa
  endVa        : area.endVa = area₀.endVa
  len          : area.resident.len = n
  absent       : ∀ i, n ≤ i → area.resident.lookup i = none
  translations : ∀ vpn, (∀ i < n, ¬SameEntry vpn (area₀.startVa / pageSize + i)) →
                  tables.translate vpn = tables₀.translate vpn
  grown        : TableTree.Extends 2 tables₀ tables
  frames       : ∃ added, (added ++ area.resident.intoFrames ++ free).Perm free₀ ∧
                  ∀ frame ∈ added, TableTree.Holds 2 tables frame

theorem appendResident_frames (frame : Ppn) (h : area.WF) (hl : ∀ i, n ≤ i → area.resident.lookup i = none)
    (hc : area.resident.len = n) (hn : n < area.pageCount) :
    ∃ area', area.appendResident frame = .ok (.ok area') ∧ area'.WF ∧ area'.startVa = area.startVa ∧
    area'.endVa = area.endVa ∧ area'.resident.len = n + 1 ∧ (∀ i, n + 1 ≤ i → area'.resident.lookup i = none) ∧
    area'.resident.intoFrames.Perm (frame :: area.resident.intoFrames) := by
  have ⟨resident, he, hw, hlen, hlookup⟩ := MapArea.appendResident_ok frame h hl hc hn
  have hb := hn.trans h.pageCount_lt_max
  have ⟨set, hset, hi⟩ := ResidentSet.insert_ok frame h.resident hb (hl n (le_refl n))
  have hsame : set = resident := by
    simp only [MapArea.appendResident, hc, hset, bind, Except.bind, pure, Except.pure] at he
    cases he
    rfl
  refine ⟨_, he, hw, rfl, rfl, hlen, fun i hle => ?_, ?_⟩
  case refine_1 => rw [hlookup, if_neg (by omega), hl i (by omega)]
  case refine_2 =>
    subst hsame
    have hperm := hi.iter.map (·.frame)
    rw [List.map_append] at hperm
    exact hperm.trans (List.perm_append_singleton frame _)

theorem Filling.init (h : area.WF) (hn : area.resident = .new) (tables : PageTables) (free : List Ppn) :
    Filling tables free area 0 tables area free where
  wf               := h
  startVa          := rfl
  endVa            := rfl
  len              := by rw [hn]; rfl
  absent           := by simp [hn]
  translations _ _ := rfl
  grown            := .refl _
  frames           := ⟨[], by simp [hn, ResidentSet.intoFrames, ResidentSet.new, RunMap.vals], by simp⟩

-- A page is mapped, and the area gets its frame.
theorem Filling.append {area₀ : MapArea} {flags : MappingFlags}
    (h : Filling tables₀ free₀ area₀ n tables area (frame :: free)) (hn : n < area.pageCount)
    (hm : tables.mapPage (area₀.startVa / pageSize + n) frame flags free = some (tables', free')) :
    ∃ area', area.appendResident frame = .ok (.ok area') ∧
    Filling tables₀ free₀ area₀ (n + 1) tables' area' free' := by
  have ⟨area', he, hw, hstart, hend, hlen, habsent, hframes⟩ := appendResident_frames frame h.wf h.absent h.len hn
  have ⟨_, hother, hgrown, taken, hfree, htaken⟩ := PageTables.mapPage_spec hm
  have ⟨added, hperm, hadded⟩ := h.frames
  refine ⟨area', he, hw, hstart.trans h.startVa, hend.trans h.endVa, hlen, habsent, fun vpn hv => ?_,
    h.grown.trans hgrown, added ++ taken, ?_, fun f hf => ?_⟩
  case refine_1 =>
    rw [hother vpn (hv n (Nat.lt_succ_self n)), h.translations vpn fun i hi => hv i (Nat.lt_succ_of_lt hi)]
  case refine_2 =>
    -- Both sides list the frames of the tables, the ones of the area and the free ones.
    refine List.Perm.trans ?_ hperm
    rw [List.perm_iff_count] at hframes ⊢
    intro f
    simp only [hfree, List.count_append, List.count_cons, hframes f]
    omega
  case refine_3 => exact (List.mem_append.mp hf).elim (fun hf => hgrown.holds (hadded f hf)) (htaken f)

-- When the loop fails, the entries of the pages that it has mapped are cleared, and their frames are free again.
theorem insertFrames_spec {area₀ : MapArea} {result : Except SysErrNo MapArea}
    (h : Filling tables₀ free₀ area₀ n tables area free) (hn : n + pages ≤ area₀.pageCount)
    (hl : permission.hasLeafPermission)
    (hr : insertFrames permission (area₀.startVa / pageSize) pages (area₀.startVa / pageSize + n) tables area free =
      some (tables', free', result)) :
    (∀ error, result = .error error →
      TableTree.Extends 2 tables₀ tables' ∧
      (∀ vpn, tables'.translate vpn = tables₀.translate vpn ∨
        tables'.translate vpn = none ∧ ∃ i < area₀.pageCount, SameEntry vpn (area₀.startVa / pageSize + i)) ∧
      ∃ added, (added ++ free').Perm free₀ ∧ ∀ frame ∈ added, TableTree.Holds 2 tables' frame) ∧
    ∀ area', result = .ok area' → Filling tables₀ free₀ area₀ (n + pages) tables' area' free' := by
  induction pages generalizing n tables area free
  case zero =>
    cases hr
    exact ⟨fun _ he => (by cases he), fun _ he => by cases he; exact h⟩
  case succ pages hi =>
    cases free
    case nil =>
      cases hr
      have hext := @PageTables.unmapPages_extends tables
        (List.range' (area₀.startVa / pageSize) (area₀.startVa / pageSize + n - area₀.startVa / pageSize))
      obtain ⟨added, hperm, hadded⟩ := h.frames
      refine ⟨fun _ _ => ⟨h.grown.trans hext, fun vpn => ?_, added, by simpa using hperm,
        fun f hf => hext.holds (hadded f hf)⟩, fun _ he => (by cases he)⟩
      rw [Nat.add_sub_cancel_left]
      obtain ⟨hsame, hother⟩ := @PageTables.translate_unmapPages tables vpn (List.range' (area₀.startVa / pageSize) n)
      by_cases hv : ∃ i < n, SameEntry vpn (area₀.startVa / pageSize + i)
      case pos =>
        obtain ⟨i, hlt, hv⟩ := hv
        exact .inr ⟨hsame ⟨_, List.mem_range'_1.mpr (by omega), hv⟩, i, by omega, hv⟩
      case neg =>
        simp only [not_exists, not_and] at hv
        refine .inl ((hother fun vpn' hm hs => ?_).trans (h.translations vpn hv))
        have hb := List.mem_range'_1.mp hm
        exact hv (vpn' - area₀.startVa / pageSize) (by omega) (by rwa [Nat.add_sub_cancel' hb.1])
    case cons frame free =>
      simp only [insertFrames, hl, ite_true] at hr
      split at hr
      case h_1 => cases hr
      case h_2 tables₁ free₁ hm =>
        have hcount : area.pageCount = area₀.pageCount := by
          simp only [MapArea.pageCount, MapArea.size, h.startVa, h.endVa]
        obtain ⟨area₁, he, h₁⟩ := h.append (by omega) hm
        rw [he] at hr
        simpa only [Nat.add_assoc, Nat.add_comm 1 pages] using hi h₁ (by omega) hr

theorem Undone.refl (space : PagedSpace) (free : List Ppn) : space.Undone free space free :=
  ⟨rfl, fun _ => rfl, .refl _, [], .refl _, by simp⟩

-- The pages of an area by their numbers.
theorem contains_page (h : area.WF) (hn : n < area.pageCount) :
    area.contains ((area.startVa / pageSize + n) * pageSize) := by
  have := h.start_aligned
  have := h.end_aligned
  have := h.start_lt_end
  simp only [MapArea.contains_iff_bounds, MapArea.pageCount, MapArea.size, pageSize] at *
  omega

theorem pageCount_withBacking (h : MemorySet.pageRange startVa endVa = some (start, stop)) :
    stop / pageSize - start / pageSize = (MapArea.withBacking start stop permission backing).pageCount := by
  have hw := MemorySet.withBacking_wf h permission backing
  have := hw.start_aligned
  have := hw.end_aligned
  simp only [MapArea.withBacking, MapArea.pageCount, MapArea.size, pageSize] at *
  omega

-- An area that is added covers the entries that are new.
theorem Sound.publish (hs : space.Sound) (hw : area.WF)
    (ht : ∀ vpn, (∀ i < area.pageCount, ¬SameEntry vpn (area.startVa / pageSize + i)) →
      tables.translate vpn = space.tables.translate vpn) :
    ({ space with tables }.publish area).Sound := by
  have ⟨hall, hcovered⟩ := @MemorySet.coalesceAppend_covered ⟨.empty, space.areas⟩ _ .empty hs.areas hw
  have hin : ∀ vpn, (∃ a ∈ ({ space with tables }.publish area).areas, a.contains (vpn * pageSize)) ↔
      (∃ a ∈ space.areas, a.contains (vpn * pageSize)) ∨ area.contains (vpn * pageSize) := by
    intro vpn
    simp only [PagedSpace.publish, MapArea.contains_iff_bounds]
    exact hcovered (vpn * pageSize)
  refine ⟨hall, fun vpn pte he => ?_⟩
  simp only [hin]
  by_cases hv : ∃ i < area.pageCount, SameEntry vpn (area.startVa / pageSize + i)
  case pos =>
    have ⟨i, hi, hv⟩ := hv
    exact ⟨_, hv, .inr (contains_page hw hi)⟩
  case neg =>
    simp only [not_exists, not_and] at hv
    have ⟨vpn', hv', hm⟩ := hs.backed vpn pte ((ht vpn hv).symm.trans he)
    exact ⟨vpn', hv', .inl hm⟩

theorem insertFramedArea_sound (hs : space.Sound)
    (h : space.insertFramedAreaWithBacking free startVa endVa permission backing = some (space', free', .ok ())) :
    space'.Sound := by
  simp only [insertFramedAreaWithBacking] at h
  split at h
  case h_1 => cases h
  case h_2 start stop hr =>
    have hw := MemorySet.withBacking_wf hr permission backing
    split at h
    case isTrue =>
      cases h
      exact hs.publish hw fun _ _ => rfl
    case isFalse hl =>
      split at h <;> cases h
      case h_3 tables' area' hrun =>
        have hcount := @pageCount_withBacking _ _ _ _ permission backing hr
        have hfill := (insertFrames_spec (.init hw rfl space.tables free) (by omega) (by simpa using hl) hrun).2 _ rfl
        refine hs.publish (MemorySet.markShared_wf hfill.wf) fun vpn hv => hfill.translations vpn fun i hi => ?_
        simp only [MapArea.pageCount, MapArea.size, MemorySet.markShared_startVa, MemorySet.markShared_endVa,
          hfill.startVa, hfill.endVa] at hv
        exact hv i (by simp only [MapArea.pageCount, MapArea.size] at hcount; omega)

theorem insertFramedArea_undone (hs : space.Sound) (ha : space.Apart startVa endVa)
    (h : space.insertFramedAreaWithBacking free startVa endVa permission backing = some (space', free', .error error)) :
    space.Undone free space' free' := by
  simp only [insertFramedAreaWithBacking] at h
  split at h
  case h_1 =>
    cases h
    exact .refl ..
  case h_2 start stop hr =>
    split at h
    case isTrue => cases h
    case isFalse hl =>
      split at h <;> cases h
      case h_2 tables' hrun =>
        have hw := MemorySet.withBacking_wf hr permission backing
        have hcount := @pageCount_withBacking _ _ _ _ permission backing hr
        have ⟨hext, htrans, hframes⟩ := (insertFrames_spec (.init hw rfl space.tables free) (by omega)
          (by simpa using hl) hrun).1 error rfl
        refine ⟨rfl, fun vpn => ?_, hext, hframes⟩
        rcases htrans vpn with hsame | ⟨hnone, i, hi, hv⟩
        case inl => exact hsame
        case inr =>
          -- The entry belonged to no area before, so that it was clear.
          cases he : space.tables.translate vpn
          case none => exact hnone
          case some pte =>
            have ⟨vpn', hv', area, hm, hc⟩ := hs.backed vpn pte he
            have hfree := ha start stop hr (start / pageSize + i) vpn' (by omega) (by omega) (hv.symm.trans hv')
            exact absurd hc (hfree area hm)

theorem insertSharedFramedArea_undone
    (h : space.insertSharedFramedArea free startVa endVa permission backing frames =
      some (space', free', .error error)) : space.Undone free space' free' := by
  simp only [insertSharedFramedArea] at h
  repeat' split at h
  all_goals cases h
  all_goals exact .refl ..

theorem newBare_sound : newBare.Sound where
  areas _ h := by cases h
  backed _ _ h := by cases h

def userData : PTEFlags :=
  { PTEFlags.empty with v := true, r := true, w := true, u := true }

end PagedSpace

end WllOs
