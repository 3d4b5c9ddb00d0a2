import WllOs.Mm.Theorems.ForkCow

namespace WllOs

variable {w : World} {op : World.Op} {j k : Nat} {ms ms' ms'' child : MemorySet} {mem : Ppn → Page}
variable {frame : Ppn} {isPrivate kind : Bool} {flags : PTEFlags} {page : ResidentPage}
variable {fresh fresh' grant : Bool → Ppn → Prop} {cached : Ppn → Prop} {supply : List Ppn}

theorem Step.mono (hf : ∀ isPrivate frame, fresh isPrivate frame → fresh' isPrivate frame)
    (h : Step fresh cached (fun _ _ => False) ms ms') : Step fresh' cached grant ms ms' where
  wf     := h.wf
  user   := h.user
  backed := h.backed
  derived hw isPrivate flags page ho := by
    rcases h.derived hw isPrivate flags page ho with h | ⟨hc, hg⟩ | ⟨flags', page', ho', hf', hg⟩
    · exact .inl (hf _ _ h)
    · exact .inr (.inl ⟨hc, fun hx => (hg hx).elim⟩)
    · exact .inr (.inr ⟨flags', page', ho', hf', fun hx => .inl ((hg hx).resolve_right id)⟩)

namespace World

-- An operation on an address space that exists does what `stepSpace` says, and others do nothing.
theorem step_process (hp : op.process = some k) : w.step op = (w.spaces[k]?).elim w (w.stepSpace k · op) := by
  cases op <;> cases hp
  all_goals
    simp only [World.step, Op.process]
    cases w.spaces[k]? <;> rfl

theorem setSpace_cases (hk : w.spaces[k]? = some ms)
    (hj : (w.setSpace k ms' mem).spaces[j]? = some ms'') :
    (j = k ∧ ms'' = ms') ∨ (j ≠ k ∧ w.spaces[j]? = some ms'') := by
  have ⟨hlt, _⟩ := List.getElem?_eq_some_iff.mp hk
  simp only [setSpace, List.getElem?_set] at hj
  split at hj
  case isTrue he =>
    simp only [Option.some.injEq] at hj
    exact .inl ⟨he.symm, hj.symm⟩
  case isFalse hne => exact .inr ⟨fun he => hne he.symm, hj⟩

theorem owned_of_owns (hk : w.spaces[k]? = some ms) (ho : Owns ms.areas isPrivate flags page) :
    w.Owned page.frame := by
  have ⟨area, ha, _, _, n, hn⟩ := ho
  exact .inr (.inr ⟨ms, List.mem_of_getElem? hk, area, ha, n, page, hn, rfl⟩)

-- The frames that an operation may add to an address space: ones that nobody owns, for pages of one
-- kind, and ones of shared memory segments.
def Added (w : World) (kind isPrivate : Bool) (frame : Ppn) : Prop :=
  isPrivate = kind ∧ ¬w.Owned frame ∨ isPrivate = false ∧ frame ∈ w.segments

theorem Sole.setSpace (hk : w.spaces[k]? = some ms) (hs : w.Sole k frame) :
    (w.setSpace k ms' mem).Sole k frame := by
  refine ⟨hs.1, fun j ms'' hj hne isPrivate flags page ho => ?_⟩
  rcases setSpace_cases hk hj with ⟨rfl, _⟩ | ⟨hne, hj⟩
  case inl => exact absurd rfl hne
  case inr => exact hs.2 j ms'' hj hne isPrivate flags page ho

section SetSpace

variable (hk : w.spaces[k]? = some ms)
variable (hd : ∀ isPrivate flags page, Owns ms'.areas isPrivate flags page →
  Derived ms.areas (w.Added kind) (· ∈ w.cleanCache) (w.Grant k) isPrivate flags page)

include hk hd

-- A private page holds a frame that nobody owned before, a frame of the cache or the frame of a private
-- page.
theorem NoPrivate.setSpace (hn : w.NoPrivate frame) (ho : w.Owned frame) :
    (w.setSpace k ms' mem).NoPrivate frame := by
  refine ⟨hn.1, fun j ms'' hj flags page hp he => ?_⟩
  rcases setSpace_cases hk hj with ⟨rfl, rfl⟩ | ⟨_, hj⟩
  case inr => exact hn.2 j ms'' hj flags page hp he
  case inl =>
    rcases hd true flags page hp with (⟨_, hf⟩ | ⟨hf, _⟩) | ⟨hc, _⟩ | ⟨flags', page', ho', hf, _⟩
    · exact hf (he ▸ ho)
    · cases hf
    · exact hn.1 (he ▸ hc)
    · exact hn.2 j ms hk flags' page' ho' (hf.trans he)

-- The frame of an exposed private page of another process stays its own.
theorem Sole.setSpace_other (hiso : w.Iso) (hj : w.spaces[j]? = some ms'') (hne : j ≠ k)
    (hp : Owns ms''.areas true flags page) (hs : w.Sole j page.frame) :
    (w.setSpace k ms' mem).Sole j page.frame := by
  refine ⟨hs.1, fun i ms₁ hi hij isPrivate flags₁ page₁ ho he => ?_⟩
  rcases setSpace_cases hk hi with ⟨rfl, rfl⟩ | ⟨_, hi⟩
  case inr => exact hs.2 i ms₁ hi hij isPrivate flags₁ page₁ ho he
  case inl =>
    rcases hd isPrivate flags₁ page₁ ho with (⟨_, hf⟩ | ⟨_, hf⟩) | ⟨hc, _⟩ | ⟨flags', page', ho', hf, _⟩
    · exact hf (he ▸ owned_of_owns hj hp)
    · exact (hiso.segments _ hf).2 j ms'' hj flags page hp he.symm
    · exact hs.1 (he ▸ hc)
    · exact hs.2 i ms hk hij isPrivate flags' page' ho' (hf.trans he)

theorem Iso.setSpace (hiso : w.Iso) : (w.setSpace k ms' mem).Iso where
  segments frame hf := NoPrivate.setSpace hk hd (hiso.segments frame hf) (.inr (.inl hf))
  exposed j ms'' hj isPrivate flags page ho hx := by
    rcases setSpace_cases hk hj with ⟨rfl, rfl⟩ | ⟨hne, hj⟩
    case inr =>
      have hg := hiso.exposed j ms'' hj isPrivate flags page ho hx
      cases isPrivate
      case true => exact Sole.setSpace_other hk hd hiso hj hne ho hg
      case false => exact NoPrivate.setSpace hk hd hg (owned_of_owns hj ho)
    case inl =>
      -- A frame that was granted stays so.
      have hgrant : w.Owned page.frame → w.Grant j isPrivate page.frame →
          (w.setSpace j ms'' mem).Grant j isPrivate page.frame := fun hown hg => by
        cases isPrivate
        case true => exact Sole.setSpace hk hg
        case false => exact NoPrivate.setSpace hk hd hg hown
      rcases hd isPrivate flags page ho with (⟨hkind, hf⟩ | ⟨rfl, hf⟩) | ⟨hc, hg⟩ | ⟨flags', page', ho', hf, hx'⟩
      · -- The frame had no owner, so its only owners are the new pages, which are all of one kind.
        cases isPrivate
        case true =>
          refine Sole.setSpace hk ⟨fun hc => hf (.inl hc), fun i ms₁ hi _ _ _ page₁ ho₁ he => ?_⟩
          exact hf (he ▸ owned_of_owns hi ho₁)
        case false =>
          refine ⟨fun hc => hf (.inl hc), fun i ms₁ hi flags₁ page₁ ho₁ he => ?_⟩
          rcases setSpace_cases hk hi with ⟨rfl, rfl⟩ | ⟨_, hi⟩
          case inr => exact hf (he ▸ owned_of_owns hi ho₁)
          case inl =>
            rcases hd true flags₁ page₁ ho₁ with (⟨hk', _⟩ | ⟨hk', _⟩) | ⟨hc, _⟩ | ⟨flags', page', ho', hf', _⟩
            · cases hkind.trans hk'.symm
            · cases hk'
            · exact hf (.inl (he ▸ hc))
            · exact hf (he ▸ hf' ▸ owned_of_owns hk ho')
      · exact NoPrivate.setSpace hk hd (hiso.segments _ hf) (.inr (.inl hf))
      · exact hgrant (.inl hc) (hg hx)
      · have hown : w.Owned page.frame := hf ▸ owned_of_owns hk ho'
        rcases hx' hx with hx' | hg
        · exact hgrant hown (hf ▸ hiso.exposed j ms hk isPrivate flags' page' ho' hx')
        · exact hgrant hown hg

end SetSpace

section Append

variable (hk : w.spaces[k]? = some ms)
variable (hs : ∀ isPrivate flags page, Owns child.areas isPrivate flags page →
  isPrivate ∧ ¬w.Owned page.frame ∨ ∃ flags' page', Owns ms.areas isPrivate flags' page' ∧
    page'.frame = page.frame ∧ flags'.w = flags.w)

include hk hs

theorem NoPrivate.append (hn : w.NoPrivate frame) (ho : w.Owned frame) :
    NoPrivate { w with spaces := w.spaces ++ [child] } frame := by
  refine ⟨hn.1, fun j ms' hj flags page hp he => ?_⟩
  rcases Lists.getElem?_append_cases hj with hj | ⟨_, rfl⟩
  case inl => exact hn.2 j ms' hj flags page hp he
  case inr =>
    rcases hs true flags page hp with ⟨_, hf⟩ | ⟨flags', page', ho', hf, _⟩
    · exact hf (he ▸ ho)
    · exact hn.2 k ms hk flags' page' ho' (hf.trans he)

-- A child that shares frames with a process is isolated from the others if neither of the two has a
-- private page that is exposed.
theorem Iso.append (hiso : w.Iso)
    (hp : ∀ flags page, Owns ms.areas true flags page → ¬Exposed true flags page)
    (hc : ∀ flags page, Owns child.areas true flags page → ¬Exposed true flags page) :
    Iso { w with spaces := w.spaces ++ [child] } where
  segments frame hf := NoPrivate.append hk hs (hiso.segments frame hf) (.inr (.inl hf))
  exposed j ms' hj isPrivate flags page ho hx := by
    rcases Lists.getElem?_append_cases hj with hold | ⟨_, rfl⟩
    case inl =>
      have hg := hiso.exposed j ms' hold isPrivate flags page ho hx
      cases isPrivate
      case false => exact NoPrivate.append hk hs hg (owned_of_owns hold ho)
      case true =>
        have hne : k ≠ j := by
          rintro rfl
          rw [hk, Option.some.injEq] at hold
          exact hp flags page (hold ▸ ho) hx
        refine ⟨hg.1, fun i ms₁ hi hij isPrivate flags₁ page₁ ho₁ he => ?_⟩
        rcases Lists.getElem?_append_cases hi with hi | ⟨_, rfl⟩
        case inl => exact hg.2 i ms₁ hi hij isPrivate flags₁ page₁ ho₁ he
        case inr =>
          rcases hs isPrivate flags₁ page₁ ho₁ with ⟨_, hf⟩ | ⟨flags', page', ho', hf, _⟩
          · exact hf (he ▸ owned_of_owns hold ho)
          · exact hg.2 k ms hk hne isPrivate flags' page' ho' (hf.trans he)
    case inr =>
      cases isPrivate
      case true => exact absurd hx (hc flags page ho)
      case false =>
        rcases hs false flags page ho with ⟨hf, _⟩ | ⟨flags', page', ho', hf, hw⟩
        · cases hf
        · have hx' : Exposed false flags' page' := ⟨hw.trans hx.1, by simp⟩
          have hg := hiso.exposed k ms hk false flags' page' ho' hx'
          exact hf ▸ NoPrivate.append hk hs hg (owned_of_owns hk ho')

end Append

namespace Inv

theorem sound_at (h : w.Inv) (hk : w.spaces[k]? = some ms) : ms.Sound :=
  h.sound ms (List.mem_of_getElem? hk)

theorem setSpace (h : w.Inv) (hk : w.spaces[k]? = some ms)
    (hs : Step (w.Added kind) (· ∈ w.cleanCache) (w.Grant k) ms ms') : (w.setSpace k ms' mem).Inv where
  iso := h.iso.setSpace hk (hs.derived (h.sound_at hk).areas)
  sound ms'' hm := by
    have ⟨j, hj⟩ := List.mem_iff_getElem?.mp hm
    have hold := h.sound_at hk
    rcases setSpace_cases hk hj with ⟨rfl, rfl⟩ | ⟨_, hj⟩
    · exact ⟨hs.wf hold.areas, hs.backed hold.areas hold.backed, hs.user hold.areas hold.user⟩
    · exact h.sound_at hj

theorem setSpace_self (h : w.Inv) (hk : w.spaces[k]? = some ms) : (w.setSpace k ms mem).Inv := by
  have hs : Step (w.Added true) (· ∈ w.cleanCache) (w.Grant k) ms ms := .refl ms
  exact h.setSpace hk hs

-- Faults.

theorem resolution {frames frames' : Frames} (mem : Ppn → Page) (h : w.Inv) (hk : w.spaces[k]? = some ms)
    (hf : w.Fresh frames.supply)
    (hr : MemorySet.Resolution (· ∈ w.cleanCache) (fun _ _ => False) ms frames ms' frames') :
    (w.setSpace k ms' mem).Inv ∧ (w.setSpace k ms' mem).Fresh frames'.supply := by
  have ⟨kind, hs⟩ := hr.step
  have hadded : ∀ isPrivate frame, MemorySet.FreshFrom kind frames frames' isPrivate frame →
      w.Added kind isPrivate frame := fun isPrivate frame ⟨hkind, used, he, hu⟩ =>
    .inl ⟨hkind, hf.2 frame (he ▸ List.mem_append_left _ hu)⟩
  refine ⟨h.setSpace hk (hs.mono hadded), hf.1.sublist hr.supply.sublist, fun f hf' ho => ?_⟩
  have hn := hf.2 f (hr.supply.subset hf')
  rcases ho with hc | hg | ⟨ms'', hm, area, ha, n, page, hp, rfl⟩
  · exact hn (.inl hc)
  · exact hn (.inr (.inl hg))
  · have ⟨j, hj⟩ := List.mem_iff_getElem?.mp hm
    have howns : Owns ms''.areas area.backing.isPrivate area.flags page := ⟨area, ha, rfl, rfl, n, hp⟩
    rcases setSpace_cases hk hj with ⟨rfl, rfl⟩ | ⟨_, hj⟩
    case inr => exact hn (owned_of_owns hj howns)
    case inl =>
      rcases hs.derived (h.sound_at hk).areas _ _ _ howns with
        ⟨_, used, he, hu⟩ | ⟨hc, _⟩ | ⟨flags', page', ho', hf'', _⟩
      · exact List.disjoint_of_nodup_append (he ▸ hf.1) hu hf'
      · exact hn (.inl hc)
      · exact hn (hf'' ▸ owned_of_owns hk ho')

theorem handlePageFault {env : Env} {addr : Nat} {isStore isExec : Bool} {frames frames' : Frames}
    (h : w.Inv) (hk : w.spaces[k]? = some ms) (hf : w.Fresh frames.supply)
    (henv : env.Lawful (· ∈ w.cleanCache))
    (he : MemorySet.handlePageFault env ms frames addr isStore isExec = .ok (ms', frames')) :
    (w.setSpace k ms' mem).Inv :=
  (h.resolution mem hk hf (MemorySet.handlePageFault_resolution (h.sound_at hk).areas henv he)).1

theorem prepareWrite {env : Env} {frames : Frames} (dst len : Nat) (h : w.Inv)
    (hk : w.spaces[k]? = some ms) (hf : w.Fresh frames.supply) (henv : env.Lawful (· ∈ w.cleanCache)) :
    (w.setSpace k (MemorySet.prepareWrite env ms frames dst len).1 mem).Inv := by
  -- Every page that the loop makes writable is a step of its own.
  let P (ms' : MemorySet) (frames' : Frames) : Prop :=
    (w.setSpace k ms' mem).Inv ∧ (w.setSpace k ms' mem).Fresh frames'.supply
  have hlt := (List.getElem?_eq_some_iff.mp hk).1
  have hget : ∀ ms', (w.setSpace k ms' mem).spaces[k]? = some ms' := fun ms' =>
    List.getElem?_set_self hlt
  have hinit : P ms frames := by
    refine ⟨h.setSpace_self hk, hf.1, fun f hm ho => hf.2 f hm ?_⟩
    have ⟨_, hget⟩ := List.getElem?_eq_some_iff.mp hk
    have hset : w.spaces.set k ms = w.spaces := by rw [← hget, List.set_getElem_self]
    simpa only [World.setSpace, Owned, hset] using ho
  have hresult := MemorySet.prepareWriteFrom_induction (P := P) (fun _ _ => False) env dst len len 0
    henv (fun ms' _ hp => (hp.1.sound_at (hget ms')).areas)
    (fun ms₁ frames₁ ms₂ frames₂ hp hr => by
      have hres := hp.1.resolution mem (hget ms₁) hp.2 hr
      have hset : (w.setSpace k ms₁ mem).setSpace k ms₂ mem = w.setSpace k ms₂ mem := by
        simp [World.setSpace]
      rwa [hset] at hres)
    hinit
  exact hresult.1

theorem forkCow (frames : Frames) (mem : Ppn → Page) (h : w.Inv) (hk : w.spaces[k]? = some ms)
    (hf : w.Fresh frames.supply) (hc : (ms.forkCow frames).2.2 = .ok child) :
    Inv { w.setSpace k (ms.forkCow frames).1 mem with
      spaces := w.spaces.set k (ms.forkCow frames).1 ++ [child] } := by
  have hsound := h.sound_at hk
  have hspec := MemorySet.forkCow_spec frames hsound.areas
  have hstep : Step (w.Added true) (· ∈ w.cleanCache) (w.Grant k) ms (ms.forkCow frames).1 :=
    MemorySet.forkCow_step frames hsound.areas
  have hinv : (w.setSpace k (ms.forkCow frames).1 mem).Inv := h.setSpace hk hstep
  have hlt := (List.getElem?_eq_some_iff.mp hk).1
  have hk' : (w.setSpace k (ms.forkCow frames).1 mem).spaces[k]? = some (ms.forkCow frames).1 :=
    List.getElem?_set_self hlt
  refine ⟨hinv.iso.append hk' (fun isPrivate flags page ho => ?_) (hspec.hidden child hc)
    fun flags page ho => (hspec.child_owns hc ho).1 rfl, fun ms' hm => ?_⟩
  case refine_1 =>
    refine (hspec.child_owns hc ho).2.imp_left fun ⟨hp, hs⟩ => ⟨hp, fun hown => hf.2 _ hs ?_⟩
    -- The parent owns no other frames than before.
    rcases hown with hc | hg | ⟨ms'', hm, area, ha, n, page', hp', he⟩
    · exact .inl hc
    · exact .inr (.inl hg)
    · have ⟨j, hj⟩ := List.mem_iff_getElem?.mp hm
      have howns : Owns ms''.areas area.backing.isPrivate area.flags page' := ⟨area, ha, rfl, rfl, n, hp'⟩
      rcases setSpace_cases hk hj with ⟨rfl, rfl⟩ | ⟨_, hj⟩
      case inr => exact he ▸ owned_of_owns hj howns
      case inl =>
        have ⟨b, hb, hparent⟩ := Lists.exists_of_mem_right hspec.parent ha
        have hframes := hparent.frames n
        rw [hp', Option.map_some] at hframes
        have ⟨old, hold, hfr⟩ := Option.map_eq_some_iff.mp hframes.symm
        exact he ▸ hfr ▸ owned_of_owns hk ⟨b, hb, rfl, rfl, n, hold⟩
  case refine_2 =>
    rcases List.mem_append.mp hm with hm | hm
    case inl => exact hinv.sound ms' hm
    case inr =>
      rw [List.mem_singleton.mp hm]
      exact ⟨hspec.child_areas_wf hc, hspec.child_backed hc, hspec.child_user hsound.user hc⟩

theorem protectRange {start stop : Nat} (h : w.Inv) (hk : w.spaces[k]? = some ms)
    (hu : flags.u) (hs : w.ProtectSafe (.protectRange k start stop flags))
    (he : MemorySet.protectRange w.refCount ms start stop flags = .ok ms') :
    (w.setSpace k ms' mem).Inv := by
  have hstep : Step (w.Added true) (· ∈ w.cleanCache) (w.Grant k) ms ms' :=
    MemorySet.protectRange_step hu he fun hc area ha hne n page hn hx => by
      rcases hs ms hk hc hx.1 area ha hne n page hn with ⟨hp, hcow⟩ | hg
      · exact absurd hcow (hx.2 hp)
      · exact hg
  exact h.setSpace hk hstep

theorem stepSpace (h : w.Inv) (hk : w.spaces[k]? = some ms) (hv : op.Valid w)
    (hp : op.process = some k) (hs : w.ProtectSafe op) : (w.stepSpace k ms op).Inv := by
  cases op
  case insertLazyArea startVa endVa permission backing =>
    simp only [World.stepSpace]
    split
    case h_1 ms' he =>
      have hstep : Step (w.Added true) (· ∈ w.cleanCache) (w.Grant k) ms ms' :=
        MemorySet.insertLazyAreaWithBacking_step hv.1 he
      exact h.setSpace hk hstep
    case h_2 => exact h
  case insertFramedArea supply startVa endVa permission backing =>
    have ⟨hf, hu, hc⟩ := hv
    have hstep : Step (w.Added backing.isPrivate) (· ∈ w.cleanCache) (w.Grant k) ms _ :=
      MemorySet.insertFramedAreaWithBacking_step ⟨w.mem, supply⟩ startVa endVa hu hc fun f hm =>
        .inl ⟨rfl, hf.2 f hm⟩
    exact h.setSpace hk hstep
  case insertSharedArea startVa endVa permission shmid base offset frames =>
    simp only [World.stepSpace]
    split
    case h_1 ms' he =>
      have ⟨hu, hc, hf⟩ := hv
      have hstep : Step (w.Added true) (· ∈ w.cleanCache) (w.Grant k) ms ms' :=
        MemorySet.insertSharedFramedArea_step hu hc (fun f hm => .inr ⟨rfl, hf f hm⟩) he
      exact h.setSpace hk hstep
    case h_2 => exact h
  case handlePageFault env supply faultAddr access =>
    simp only [World.stepSpace]
    split
    case h_1 ms' frames' he => exact h.handlePageFault hk hv.1 hv.2 he
    case h_2 => exact h
  case prepareWrite env supply dst len => exact h.prepareWrite dst len hk hv.1 hv.2
  case protectRange start stop flags =>
    simp only [World.stepSpace]
    split
    case h_1 ms' he =>
      cases hp
      exact h.protectRange hk hv.1 hs he
    case h_2 => exact h
  case unmapRange start stop =>
    simp only [World.stepSpace]
    split
    case h_1 ms' he =>
      have hstep : Step (w.Added true) (· ∈ w.cleanCache) (w.Grant k) ms ms' :=
        MemorySet.unmapRange_step he
      exact h.setSpace hk hstep
    case h_2 => exact h
  case discardAnonymousRange start stop =>
    simp only [World.stepSpace]
    split
    case h_1 ms' _ he =>
      have hstep : Step (w.Added true) (· ∈ w.cleanCache) (w.Grant k) ms ms' :=
        MemorySet.discardAnonymousRange_step he
      exact h.setSpace hk hstep
    case h_2 => exact h
  case forkCow supply =>
    have hstep : Step (w.Added true) (· ∈ w.cleanCache) (w.Grant k) ms (ms.forkCow ⟨w.mem, supply⟩).1 :=
      MemorySet.forkCow_step _ (h.sound_at hk).areas
    simp only [World.stepSpace]
    split
    case h_1 ms' frames' child he =>
      have := h.forkCow ⟨w.mem, supply⟩ frames'.mem hk hv (by rw [he])
      rwa [he] at this
    case h_2 ms' frames' error he =>
      rw [he] at hstep
      exact h.setSpace hk hstep
  case releaseUserAreas =>
    have hstep : Step (w.Added true) (· ∈ w.cleanCache) (w.Grant k) ms ms.releaseUserAreas :=
      MemorySet.releaseUserAreas_step
    exact h.setSpace hk hstep
  case store addr byte =>
    simp only [World.stepSpace, World.store]
    split
    case h_1 => exact h
    case h_2 =>
      split
      case isTrue => exact ⟨⟨h.iso.exposed, h.iso.segments⟩, h.sound⟩
      case isFalse => exact h
  all_goals exact h

theorem newBare (h : w.Inv) : Inv { w with spaces := w.spaces ++ [.newBare] } := by
  have hnone : ∀ isPrivate flags page, ¬Owns MemorySet.newBare.areas isPrivate flags page := by
    simp [Owns, MemorySet.newBare]
  have hno : ∀ frame, w.NoPrivate frame → NoPrivate { w with spaces := w.spaces ++ [.newBare] } frame := by
    refine fun frame hn => ⟨hn.1, fun j ms hj flags page ho => ?_⟩
    rcases Lists.getElem?_append_cases hj with hj | ⟨_, rfl⟩
    · exact hn.2 j ms hj flags page ho
    · exact absurd ho (hnone _ _ _)
  refine ⟨⟨fun k ms hk isPrivate flags page ho hx => ?_, fun frame hf => hno _ (h.iso.segments frame hf)⟩,
    fun ms hm => ?_⟩
  case refine_1 =>
    rcases Lists.getElem?_append_cases hk with hk | ⟨_, rfl⟩
    case inr => exact absurd ho (hnone _ _ _)
    case inl =>
      have hg := h.iso.exposed k ms hk isPrivate flags page ho hx
      cases isPrivate
      case false => exact hno _ hg
      case true =>
        refine ⟨hg.1, fun j ms hj hne isPrivate flags page ho => ?_⟩
        rcases Lists.getElem?_append_cases hj with hj | ⟨_, rfl⟩
        · exact hg.2 j ms hj hne isPrivate flags page ho
        · exact absurd ho (hnone _ _ _)
  case refine_2 =>
    rcases List.mem_append.mp hm with hm | hm
    case inl => exact h.sound ms hm
    case inr =>
      rw [List.mem_singleton.mp hm]
      exact ⟨by simp [MemorySet.newBare], (fun _ _ he => by cases he), by simp [MemorySet.newBare]⟩

-- The frames of the kernel change, but the pages of the processes do not.
theorem setKernel {cleanCache segments : List Ppn} (h : w.Inv)
    (hc : ∀ frame ∈ cleanCache, frame ∈ w.cleanCache ∨ ¬w.Owned frame)
    (hs : ∀ frame ∈ segments, frame ∈ w.segments ∨ ¬w.Owned frame)
    (hd : ∀ frame ∈ segments, frame ∉ cleanCache) :
    Inv { w with cleanCache, segments, mem } := by
  have hcache : ∀ frame, w.Owned frame → frame ∉ w.cleanCache → frame ∉ cleanCache :=
    fun frame ho hn hm => (hc frame hm).elim hn (absurd ho)
  refine ⟨⟨fun k ms hk isPrivate flags page ho hx => ?_, fun frame hf => ?_⟩, h.sound⟩
  case refine_1 =>
    have hg := h.iso.exposed k ms hk isPrivate flags page ho hx
    have hown : w.Owned page.frame := owned_of_owns (w := w) hk ho
    cases isPrivate
    case false => exact ⟨hcache _ hown hg.1, hg.2⟩
    case true => exact ⟨hcache _ hown hg.1, hg.2⟩
  case refine_2 =>
    refine ⟨hd frame hf, ?_⟩
    rcases hs frame hf with hs | hn
    case inl => exact (h.iso.segments frame hs).2
    case inr => exact fun j ms hj flags page ho he => hn (he ▸ owned_of_owns hj ho)

theorem step (h : w.Inv) (hv : op.Valid w) (hs : w.ProtectSafe op) : (w.step op).Inv := by
  have hdisjoint : ∀ frame ∈ w.segments, frame ∉ w.cleanCache := fun frame hf =>
    (h.iso.segments frame hf).1
  cases hp : op.process
  case some k =>
    rw [step_process hp]
    cases hk : w.spaces[k]?
    case none => exact h
    case some ms => exact h.stepSpace hk hv hp hs
  case none =>
    cases op
    case newBare => exact h.newBare
    case cacheFrame frame data =>
      refine h.setKernel (fun f hf => ?_) (fun f hf => .inl hf) (fun f hf hc => ?_)
      · exact (List.mem_cons.mp hf).symm.imp_right fun he => by rw [he]; exact hv
      · rcases List.mem_cons.mp hc with rfl | hc
        · exact hv (.inr (.inl hf))
        · exact hdisjoint f hf hc
    case evictFrame frame =>
      exact h.setKernel (fun f hf => .inl (List.mem_of_mem_erase hf)) (fun f hf => .inl hf)
        fun f hf hc => hdisjoint f hf (List.mem_of_mem_erase hc)
    case createSegment frames =>
      refine h.setKernel (fun f hf => .inl hf) (fun f hf => ?_) (fun f hf hc => ?_)
      · exact (List.mem_append.mp hf).symm.imp_right (hv f)
      · rcases List.mem_append.mp hf with hf | hf
        · exact hv f hf (.inl hc)
        · exact hdisjoint f hf hc
    case dropSegment frames =>
      have hsub : ∀ f ∈ w.segments.diff frames, f ∈ w.segments := fun f hf => List.diff_subset _ _ hf
      exact h.setKernel (fun f hf => .inl hf) (fun f hf => .inl (hsub f hf))
        fun f hf => hdisjoint f (hsub f hf)
    all_goals cases hp

end Inv

theorem Reachable.inv (h : Reachable ProtectSafe w) : w.Inv := by
  induction h
  case init => exact ⟨⟨fun _ _ h => by simp [World.init] at h, by simp [World.init]⟩, by simp [World.init]⟩
  case step w op _ hv hs hi => exact hi.step hv hs

theorem Reachable.mono {condition condition' : World → Op → Prop} (hc : ∀ w op, condition w op → condition' w op)
    (h : Reachable condition w) : Reachable condition' w := by
  induction h
  case init => exact .init
  case step w op _ hv hs hi => exact .step hi hv (hc w op hs)

-- An entry that permits stores belongs to an exposed page.
theorem exposed_of_writable {pte : Pte} (isPrivate : Bool) (h : pteOf flags page = some pte)
    (hw : pte.flags.w) :
    page.frame = pte.ppn ∧ Exposed isPrivate flags page := by
  simp only [pteOf, Option.ite_none_left_eq_some, Option.some.injEq] at h
  obtain ⟨_, h⟩ := h
  subst h
  by_cases hc : page.state = .cow
  case pos => simp [effectiveMappingFlagsForPage, hc, MappingFlags.ofPTEFlags] at hw
  case neg =>
    simp only [effectiveMappingFlagsForPage, hc, if_false, MappingFlags.ofPTEFlags] at hw
    exact ⟨rfl, hw, fun _ => hc⟩

namespace Inv

variable {vpn : Nat} {pte : Pte}

-- Every entry belongs to a resident page of an area that contains it.
theorem entry (h : w.Inv) (hk : w.spaces[k]? = some ms) (hp : ms.pageTable vpn = some pte) :
    ∃ area ∈ ms.areas, area.contains (vpn * pageSize) ∧ ∃ page,
      Owns ms.areas area.backing.isPrivate area.flags page ∧ pteOf area.flags page = some pte := by
  have hs := h.sound_at hk
  have ⟨area, ha, _, page, hpage, hpte⟩ := hs.backed vpn pte hp
  have ⟨n, _, hn⟩ := MapArea.pageAt_eq_some.mp hpage
  have hb := (hs.areas area ha).pageAt_bounds hpage
  exact ⟨area, ha, MapArea.contains_iff_bounds.mpr hb, page, ⟨area, ha, rfl, rfl, n, hn⟩, hpte⟩

theorem granted (h : w.Inv) (hk : w.spaces[k]? = some ms) (hp : ms.pageTable vpn = some pte)
    (hw : pte.flags.w) : ∃ area ∈ ms.areas, area.contains (vpn * pageSize) ∧
      w.Grant k area.backing.isPrivate pte.ppn := by
  have ⟨area, ha, hc, page, ho, hpte⟩ := h.entry hk hp
  have ⟨hf, hx⟩ := exposed_of_writable area.backing.isPrivate hpte hw
  exact ⟨area, ha, hc, hf ▸ h.iso.exposed k ms hk _ _ page ho hx⟩

-- A frame that one process may write is not the frame of a private page of another one.
theorem grant_ne {ms' : MemorySet} {vpn' : Nat} {pte' : Pte} (h : w.Inv)
    (hg : w.Grant k isPrivate pte.ppn) (hj : w.spaces[j]? = some ms') (hne : j ≠ k)
    (hp : ms'.pageTable vpn' = some pte') (hprivate : ms'.IsPrivate vpn') : pte'.ppn ≠ pte.ppn := by
  have ⟨area, ha, hc, page, ho, hpte⟩ := h.entry hj hp
  rw [hprivate area ha hc] at ho
  have hf : page.frame = pte'.ppn := by
    simp only [pteOf, Option.ite_none_left_eq_some, Option.some.injEq] at hpte
    exact hpte.2 ▸ rfl
  rw [← hf]
  cases isPrivate
  case true => exact hg.2 j ms' hj hne _ _ _ ho
  case false => exact hg.2 j ms' hj _ _ ho

theorem isolated (h : w.Inv) : w.Isolated where
  writable k ms vpn pte hk hp hw hprivate := by
    obtain ⟨area, ha, hc, hg⟩ := h.granted hk hp hw
    rwa [hprivate area ha hc] at hg
  store j k ms ms' addr addr' byte hk hj hne hprivate := by
    simp only [World.store, MemorySet.translate]
    split
    case h_1 => rfl
    case h_2 pte hp =>
      split
      case isFalse => rfl
      case isTrue hstore =>
        simp only [MappingFlags.permits, Bool.and_eq_true] at hstore
        obtain ⟨_, _, _, hg⟩ := h.granted hk hp hstore.2
        simp only [load, MemorySet.translate]
        split
        case h_1 => rfl
        case h_2 pte' hp' =>
          rw [Function.update_of_ne (h.grant_ne hg hj hne hp' hprivate)]

end Inv

theorem Fresh.of_not_resident (hs : supply.Nodup) (hc : w.cleanCache = []) (hg : w.segments = [])
    (hr : ∀ ms ∈ w.spaces, ∀ area ∈ ms.areas, area.resident = .new) : w.Fresh supply := by
  refine ⟨hs, fun frame _ ho => ?_⟩
  rcases ho with ho | ho | ⟨ms, hm, area, ha, n, page, hp, _⟩
  · simp [hc] at ho
  · simp [hg] at ho
  · simp [hr ms hm area ha, ResidentSet.lookup_new] at hp

section Fork

def noFiles : Env where
  refCount := fun _ => 1
  canUseCleanPageCache := fun _ => false
  cleanPageCacheFrames := fun _ _ _ _ => .ok []
  readAt := fun _ _ => .error .EBADF

theorem noFiles_lawful : (w.env noFiles).Lawful cached where
  refCount_pos _ := Nat.le_max_left ..
  cache := by simp [env, noFiles]

def readOnly : PTEFlags :=
  { PTEFlags.empty with v := true, r := true, u := true }

def readWrite : PTEFlags :=
  { readOnly with w := true }

-- A process maps an anonymous page, accesses it and forks.
def mapped (permission : PTEFlags) : World :=
  (init.step .newBare).step (.insertLazyArea 0 0x1000 0x2000 permission .anonymous)

def forked (permission : PTEFlags) (access : Access) : World :=
  ((mapped permission).step (.handlePageFault 0 noFiles [7] 0x1000 access)).step (.forkCow 0 [])

theorem mapped_spaces (permission : PTEFlags) : (mapped permission).spaces =
    [⟨.empty, [.withBacking 0x1000 0x2000 permission .anonymous]⟩] := by
  cbv

theorem mapped_fresh (permission : PTEFlags) : (mapped permission).Fresh [7] := by
  refine .of_not_resident (List.nodup_singleton 7) (by cbv) (by cbv) fun ms hms area ha => ?_
  rw [mapped_spaces, List.mem_singleton] at hms
  subst hms
  rw [List.mem_singleton.mp ha, MapArea.withBacking]

theorem forked_reachable {permission : PTEFlags} (a : Access) (hu : permission.u ∧ ¬permission.cow)
    (hf : (mapped permission).Fresh [7]) :
    Reachable (fun w op => w.ProtectSafe op ∧ w.InsertsFree op) (forked permission a) := by
  have hbare : Reachable (fun w op => w.ProtectSafe op ∧ w.InsertsFree op) (init.step .newBare) :=
    .step .init trivial ⟨trivial, trivial⟩
  have hempty : ∀ ms, (init.step .newBare).spaces[0]? = some ms → ms.RangeFree 0x1000 0x2000 := by
    rintro ms hms _ _ _ a ha
    simp only [step, init, List.nil_append, List.getElem?_cons_zero, Option.some.injEq] at hms
    simp [← hms, MemorySet.newBare] at ha
  have hmapped : Reachable (fun w op => w.ProtectSafe op ∧ w.InsertsFree op) (mapped permission) :=
    .step hbare hu ⟨trivial, hempty⟩
  have hfaulted : Reachable (fun w op => w.ProtectSafe op ∧ w.InsertsFree op)
      ((mapped permission).step (.handlePageFault 0 noFiles [7] 0x1000 a)) :=
    .step hmapped ⟨hf, noFiles_lawful⟩ ⟨trivial, trivial⟩
  exact .step hfaulted ⟨.nil, by simp⟩ ⟨trivial, trivial⟩

end Fork

theorem readOnly_fresh : (mapped readOnly).Fresh [7] :=
  mapped_fresh readOnly

-- The child makes the page writable. It is shared with the parent, but it is not marked as
-- copy-on-write, so its entry permits stores.
def childProtected : World :=
  (forked readOnly .load).step (.protectRange 1 0x1000 0x2000 readWrite)

end World

end WllOs
