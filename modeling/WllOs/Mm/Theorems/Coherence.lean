import WllOs.Mm.Theorems.Isolation

namespace WllOs

variable {w : World} {op : World.Op} {k : Nat} {ms ms' ms'' : MemorySet} {mem : Ppn → Page}
variable {env : Env} {frames frames' : Frames} {cached : Ppn → Prop}

-- The steps whose frames do not matter.
abbrev AnyStep (cached : Ppn → Prop) (ms ms' : MemorySet) : Prop :=
  Step (fun _ _ => True) cached (fun _ _ => True) ms ms'

namespace MemorySet

theorem Coherent.step (h : ms.Coherent) (hs : AnyStep cached ms ms') (hsorted : Sorted ms'.areas) :
    ms'.Coherent :=
  ⟨⟨hs.wf h.areas, hsorted⟩, hs.backed h.areas h.backed, hs.user h.areas h.user⟩

theorem Coherent.pteCoherent (h : ms.Coherent) : ms.PteCoherent := by
  have hpublished : ∀ vpn pte, ms.pageTable vpn = some pte → ∃ i area page,
      ms.Publishes vpn pte i area page := by
    intro vpn pte hp
    obtain ⟨area, ha, hleaf, page, hpage, hpte⟩ := h.backed vpn pte hp
    obtain ⟨i, hi⟩ := List.mem_iff_getElem?.mp ha
    have hb := (h.areas area ha).pageAt_bounds hpage
    rw [(h.areas area ha).pageAt_eq hb.1] at hpage
    simp only [pteOf, Option.ite_none_left_eq_some, Option.some.injEq] at hpte
    obtain ⟨_, hpte⟩ := hpte
    exact ⟨i, area, page, hi, MapArea.contains_iff_bounds.mpr hb, hleaf, hpage, hpte ▸ rfl, hpte ▸ rfl⟩
  refine ⟨fun vpn pte hp => ?_, fun vpn hn => ?_⟩
  case refine_1 =>
    obtain ⟨i, area, page, hpub⟩ := hpublished vpn pte hp
    exact ⟨i, area, page, hpub, fun j area' hj hc => h.sorted.index_unique hj hpub.at_index
      (MapArea.contains_iff_bounds.mp hc) (MapArea.contains_iff_bounds.mp hpub.contains)⟩
  case refine_2 =>
    cases hp : ms.pageTable vpn
    case none => rfl
    case some pte =>
      obtain ⟨i, area, page, hpub⟩ := hpublished vpn pte hp
      rcases hn area (List.mem_of_getElem? hpub.at_index) hpub.contains with hl | hr
      · exact absurd hpub.leaf hl
      · rw [hpub.resident] at hr
        cases hr

theorem Coherent.newBare : MemorySet.newBare.Coherent where
  areas  := by simp [MemorySet.newBare]
  sorted := .nil
  backed _ _ he := nomatch he
  user   := by simp [MemorySet.newBare]

theorem Resolution.coherent (h : ms.Coherent)
    (hr : Resolution cached (fun _ _ => False) ms frames ms' frames') : ms'.Coherent := by
  have ⟨_, hs⟩ := hr.step
  have hstep : AnyStep cached ms ms' := hs.mono fun _ _ _ => trivial
  exact h.step hstep (hr.wf h.toWF).sorted

theorem Coherent.prepareWrite (h : ms.Coherent) (henv : env.Lawful cached) (dst len : Nat) :
    (MemorySet.prepareWrite env ms frames dst len).1.Coherent :=
  prepareWriteFrom_induction (P := fun ms _ => ms.Coherent) (fun _ _ => False) env dst len len 0 henv
    (fun _ _ h => h.areas) (fun _ _ _ _ h hr => hr.coherent h) h

end MemorySet

namespace World

theorem mem_setSpace (h : ms'' ∈ (w.setSpace k ms' mem).spaces) : ms'' ∈ w.spaces ∨ ms'' = ms' :=
  List.mem_or_eq_of_mem_set h

-- The address spaces that an operation on one of them leaves or adds.
theorem stepSpace_coherent (h : ms.Coherent) (hk : w.spaces[k]? = some ms) (hv : op.Valid w)
    (hp : op.process = some k) (hf : w.InsertsFree op) :
    ∀ ms' ∈ (w.stepSpace k ms op).spaces, ms' ∈ w.spaces ∨ ms'.Coherent := by
  have hset : ∀ ms₁ mem, ms₁.Coherent → ∀ ms' ∈ (w.setSpace k ms₁ mem).spaces,
      ms' ∈ w.spaces ∨ ms'.Coherent := fun ms₁ mem h₁ ms' hm =>
    (mem_setSpace hm).imp_right fun (he : ms' = ms₁) => he ▸ h₁
  have hsame : ∀ ms' ∈ w.spaces, ms' ∈ w.spaces ∨ ms'.Coherent := fun ms' => .inl
  cases op <;> cases hp
  case insertLazyArea startVa endVa permission backing =>
    simp only [stepSpace]
    split
    case h_1 ms₁ he =>
      have hstep : AnyStep (fun _ => True) ms ms₁ := MemorySet.insertLazyAreaWithBacking_step hv.1 he
      exact hset ms₁ _ (h.step hstep (MemorySet.insertLazyAreaWithBacking_sorted h.toWF (hf ms hk) he))
    case h_2 => exact hsame
  case insertFramedArea supply startVa endVa permission backing =>
    obtain ⟨_, hu, hc⟩ := hv
    have hstep : AnyStep (fun _ => True) ms
        (ms.insertFramedAreaWithBacking ⟨w.mem, supply⟩ startVa endVa permission backing).1 :=
      MemorySet.insertFramedAreaWithBacking_step ⟨w.mem, supply⟩ startVa endVa hu hc fun _ _ => trivial
    exact hset _ _ (h.step hstep
      (MemorySet.insertFramedAreaWithBacking_sorted h.toWF (hf ms hk) hc))
  case insertSharedArea startVa endVa permission shmid base offset shared =>
    obtain ⟨hu, hc, _⟩ := hv
    simp only [stepSpace]
    split
    case h_1 ms₁ he =>
      have hstep : AnyStep (fun _ => True) ms ms₁ :=
        MemorySet.insertSharedFramedArea_step hu hc (fun _ _ => trivial) he
      exact hset ms₁ _ (h.step hstep (MemorySet.insertSharedFramedArea_sorted h.toWF he))
    case h_2 => exact hsame
  case handlePageFault env supply faultAddr access =>
    simp only [stepSpace]
    split
    case h_1 ms₁ frames he =>
      exact hset ms₁ _ ((MemorySet.handlePageFault_resolution h.areas hv.2 he).coherent h)
    case h_2 => exact hsame
  case prepareWrite env supply dst len => exact hset _ _ (h.prepareWrite hv.2 dst len)
  case protectRange start stop flags =>
    simp only [stepSpace]
    split
    case h_1 ms₁ he =>
      have hstep : AnyStep (fun _ => True) ms ms₁ :=
        MemorySet.protectRange_step hv.1 he fun _ _ _ _ _ _ _ _ => trivial
      exact hset ms₁ _ (h.step hstep (MemorySet.protectRange_sorted h.toWF he))
    case h_2 => exact hsame
  case unmapRange start stop =>
    simp only [stepSpace]
    split
    case h_1 ms₁ he =>
      have hstep : AnyStep (fun _ => True) ms ms₁ := MemorySet.unmapRange_step he
      exact hset ms₁ _ (h.step hstep (MemorySet.unmapRange_sorted h.toWF he))
    case h_2 => exact hsame
  case discardAnonymousRange start stop =>
    simp only [stepSpace]
    split
    case h_1 ms₁ _ he =>
      have hstep : AnyStep (fun _ => True) ms ms₁ := MemorySet.discardAnonymousRange_step he
      exact hset ms₁ _ (h.step hstep (MemorySet.discardAnonymousRange_sorted h.toWF he))
    case h_2 => exact hsame
  case forkCow supply =>
    have hparent := MemorySet.forkCow_coherent ⟨w.mem, supply⟩ h
    have hspec := MemorySet.forkCow_spec ⟨w.mem, supply⟩ h.areas
    simp only [stepSpace]
    split
    case h_1 ms₁ frames child he =>
      rw [he] at hparent hspec
      intro ms' hm
      rcases List.mem_append.mp hm with hm | hm
      case inl => exact hset ms₁ frames.mem hparent ms' hm
      case inr => exact .inr (List.mem_singleton.mp hm ▸ hspec.child_coherent h rfl)
    case h_2 ms₁ frames error he =>
      rw [he] at hparent
      exact hset ms₁ _ hparent
  case releaseUserAreas =>
    have hstep : AnyStep (fun _ => True) ms ms.releaseUserAreas := MemorySet.releaseUserAreas_step
    exact hset _ _ (h.step hstep .nil)
  case store addr byte =>
    simp only [stepSpace, World.store]
    split
    case h_1 => exact hsame
    case h_2 => split <;> exact hsame

theorem step_coherent (h : ∀ ms ∈ w.spaces, ms.Coherent) (hv : op.Valid w) (hf : w.InsertsFree op) :
    ∀ ms ∈ (w.step op).spaces, ms.Coherent := by
  cases hp : op.process
  case some k =>
    rw [step_process hp]
    cases hk : w.spaces[k]?
    case none => exact h
    case some ms =>
      intro ms' hm
      exact (stepSpace_coherent (h ms (List.mem_of_getElem? hk)) hk hv hp hf ms' hm).elim (h ms') id
  case none =>
    cases op
    case newBare =>
      intro ms hm
      rcases List.mem_append.mp hm with hm | hm
      case inl => exact h ms hm
      case inr => exact List.mem_singleton.mp hm ▸ .newBare
    case cacheFrame | evictFrame | createSegment | dropSegment => exact h
    all_goals cases hp

-- As long as insertions find their ranges free, the areas and the page table of every process agree.
theorem Reachable.coherent (h : Reachable InsertsFree w) : ∀ ms ∈ w.spaces, ms.Coherent := by
  induction h
  case init => exact nofun
  case step w op _ hv hf hi => exact step_coherent hi hv hf

theorem readWrite_fresh : (mapped readWrite).Fresh [7] :=
  mapped_fresh readWrite

-- The frames of `insert_framed_area_with_frames` belong to the caller, so that the entries of the area are
-- not the ones of resident pages.
def externalFrames : MemorySet :=
  (MemorySet.newBare.insertFramedAreaWithFrames ⟨fun _ => .zero, [7]⟩ 0x1000 0x2000 readWrite).1

theorem externalFrames_not_published : ¬externalFrames.PteCoherent := by
  intro h
  let area : MapArea := .withBacking 0x1000 0x2000 readWrite .anonymous
  have hareas : externalFrames.areas = [area] := by decide_cbv
  have hpte : externalFrames.pageTable 1 = some ⟨7, .ofPTEFlags readWrite⟩ := by decide_cbv
  obtain ⟨i, area', page, hpub, _⟩ := h.present 1 _ hpte
  have harea : area' = area := by
    simpa [hareas] using List.mem_of_getElem? hpub.at_index
  have hresident := hpub.resident
  rw [harea, show area.resident = .new from rfl, ResidentSet.lookup_new] at hresident
  cases hresident

-- The other insertions do not check whether their range is free, so that two areas can contain a page.
def overlapping : World :=
  ((init.step .newBare).step (.insertFramedArea 0 [7] 0x1000 0x2000 readWrite .anonymous)).step
    (.insertLazyArea 0 0x1000 0x2000 readOnly .anonymous)

theorem overlapping_reachable : Reachable (fun _ _ => True) overlapping := by
  have hfresh : (init.step .newBare).Fresh [7] :=
    .of_not_resident (by simp) (by decide_cbv) (by decide_cbv) (by decide_cbv)
  exact .step (.step (.step .init trivial trivial) ⟨hfresh, rfl, by decide⟩ trivial) ⟨rfl, by decide⟩ trivial

-- The child exits and the parent changes the protection of the page to read-only and back. As the frame
-- has a single owner then, the area is not marked as copy-on-write, but its page still is.
def reprotected : World :=
  (((forked readWrite .store).step (.releaseUserAreas 1)).step
    (.protectRange 0 0x1000 0x2000 readOnly)).step (.protectRange 0 0x1000 0x2000 readWrite)

end World

end WllOs
