import WllOs.Mm.Theorems.ReadsZero
import WllOs.Mm.Theorems.Syscall

set_option mvcgen.warning false

open Std.Do

namespace WllOs

variable {ms ms' : MemorySet} {area : MapArea} {frames : Frames} {env : Env} {kernel : Kernel}
variable {vpn addr start stop n i newBrk mappedBreak newMappedEnd programBreak : Nat} {view : PageView}

namespace MemorySet

theorem pageRange_of_aligned (hs : start % pageSize = 0) (he : stop % pageSize = 0) (hlt : start < stop)
    (hm : stop ≤ Usize.max) : pageRange start stop = some (start, stop) := by
  have hstop : alignUp stop = some stop := by
    simp only [alignUp, Option.map_eq_some_iff, Usize.checkedAdd_eq_some]
    exact ⟨stop + (pageSize - 1), ⟨rfl, by simp only [pageSize, Usize.max] at *; omega⟩, by
      simp only [pageSize] at *; omega⟩
  have hstart : alignDown start = start := alignDown_eq hs
  simp [pageRange, hstop, hstart, hlt]

theorem RangeFree.meaning_eq_none (hr : pageRange start stop = some (start, stop)) (hf : ms.RangeFree start stop)
    (hv : start ≤ vpn * pageSize ∧ vpn * pageSize < stop) : ms.meaning vpn = none := by
  refine List.findSome?_eq_none_iff.mpr fun a ha => MapArea.view_eq_none.mpr fun hc => ?_
  exact hf start stop hr a ha (overlaps_iff.mpr (by omega))

-- A new area that overlaps no other one gives a meaning to its pages and keeps the other ones.
theorem insertLazyArea_meaning {permission : PTEFlags} {backing : MapAreaBacking} (hw : ms.WF)
    (hr : pageRange start stop = some (start, stop)) (hf : ms.RangeFree start stop)
    (h : ms.insertLazyAreaWithBacking start stop permission backing = .ok ms') (vpn : Nat) :
    ms'.meaning vpn = if start ≤ vpn * pageSize ∧ vpn * pageSize < stop then
      some ⟨permission, backing.page (vpn * pageSize - start), none⟩ else ms.meaning vpn := by
  have hsorted := insertLazyAreaWithBacking_sorted hw hf h
  simp only [insertLazyAreaWithBacking, hr] at h
  cases h
  have hnew := withBacking_wf hr permission backing
  have hws : ∀ a ∈ ms.areas ++ [MapArea.withBacking start stop permission backing], a.WF := fun a ha => by
    rcases List.mem_append.mp ha with ha | ha
    · exact hw.areas a ha
    · exact List.mem_singleton.mp ha ▸ hnew
  have hview : ∀ view, (MapArea.withBacking start stop permission backing).view vpn = some view ↔
      (start ≤ vpn * pageSize ∧ vpn * pageSize < stop) ∧
      view = ⟨permission, backing.page (vpn * pageSize - start), none⟩ := fun view => by
    simp [MapArea.view_eq_some, MapArea.withBacking, ResidentSet.lookup_new, and_assoc]
  refine Option.ext fun view => ?_
  rw [hsorted.meaning_eq_some, coalesceAreas_rearranged.views hws, Views.append, Views.cons, hview,
    ← hw.sorted.meaning_eq_some]
  split
  case isFalse hout => simp [hout]
  case isTrue hin =>
    simp [hin, hf.meaning_eq_none hr hin, eq_comm]

end MemorySet

theorem growHeap_coherent (h : ms.Coherent) (hg : sysBrk.growHeap ms mappedBreak newMappedEnd = .ok ms') :
    ms'.Coherent := by
  have hw := growHeap_wf h.toWF hg
  simp only [sysBrk.growHeap] at hg
  split at hg
  case isTrue =>
    split at hg
    case isTrue => cases hg
    case isFalse =>
      have hstep : AnyStep (fun _ => True) ms ms' := MemorySet.insertLazyAreaWithBacking_step rfl hg
      exact h.step hstep hw.sorted
  case isFalse =>
    split at hg
    case isTrue =>
      have hstep : AnyStep (fun _ => True) ms ms' := MemorySet.unmapRange_step hg
      exact h.step hstep hw.sorted
    case isFalse =>
      cases hg
      exact h

namespace HeapResized

variable {process : Process}

theorem refl (process : Process) : HeapResized process process where
  grown _ h h'  := absurd h (by omega)
  shrunk _ h h' := absurd h (by omega)
  kept _ _      := rfl
  contents      := rfl

theorem of_growHeap (h : HeapInv process.memorySet process.mm) (ha : alignUp newBrk = some newMappedEnd)
    (hg : sysBrk.growHeap process.memorySet process.mm.mappedBreak newMappedEnd = .ok ms') :
    HeapResized process { process with
      memorySet := ms'
      mm := { process.mm with programBreak := newBrk, mappedBreak := newMappedEnd } } := by
  have hcoherent := growHeap_coherent h.toCoherent hg
  have hold := alignUp_mod h.breaks
  have hnew := alignUp_mod ha
  simp only [sysBrk.growHeap] at hg
  split at hg
  case isTrue hlt =>
    split at hg
    case isTrue => cases hg
    case isFalse hno =>
      have hfree : process.memorySet.RangeFree process.mm.mappedBreak newMappedEnd :=
        MemorySet.rangeFree_of_not_overlaps h.toWF <|
          (MemorySet.rangeOverlaps_eq_false h.toWF hlt).mp (Bool.eq_false_iff.mpr hno)
      have hr := MemorySet.pageRange_of_aligned hold hnew hlt (alignUp_le_max ha)
      have hmeaning := MemorySet.insertLazyArea_meaning h.toWF hr hfree hg
      exact {
        grown vpn hs he := by
          have hpage : ms'.meaning vpn = some heapPage := by
            rw [hmeaning, if_pos ⟨hs, he⟩]
            rfl
          exact ⟨hfree.meaning_eq_none hr ⟨hs, he⟩, hpage, hcoherent.readsZero hpage rfl rfl⟩
        shrunk vpn hs he := by
          dsimp only at hs
          omega
        kept vpn hv := by
          dsimp only at hv
          rw [hmeaning, if_neg (by omega)]
        contents := rfl
      }
  case isFalse hle =>
    split at hg
    case isTrue hlt =>
      have hmeaning := MemorySet.unmapRange_meaning h.toWF hnew hold hg
      exact {
        grown vpn hs he := by
          dsimp only at he
          omega
        shrunk vpn hs he := by
          dsimp only at hs ⊢
          rw [hmeaning, if_pos ⟨hs, he⟩]
        kept vpn hv := by
          dsimp only at hv
          rw [hmeaning, if_neg (by omega)]
        contents := rfl
      }
    case isFalse hge =>
      cases hg
      have heq : process.mm.mappedBreak = newMappedEnd := by omega
      exact {
        grown vpn hs he := by
          dsimp only at he
          omega
        shrunk vpn hs he := by
          dsimp only at hs
          omega
        kept _ _ := rfl
        contents := rfl
      }

end HeapResized

theorem Process.exec_get {α : Type} {process : Process} (f : Process → SyscallM α) :
    process.exec (get >>= f) = process.exec (f process) :=
  rfl

open Process in
-- A request either moves both ends of the heap or has no effect.
theorem exec_sysBrk (process : Process) (kernel : Kernel) (newBrk : Nat) :
    process.exec (sysBrk kernel newBrk) = (.ok process.mm.programBreak, process) ∨
    ∃ newMappedEnd ms', alignUp newBrk = some newMappedEnd ∧
      sysBrk.growHeap process.memorySet process.mm.mappedBreak newMappedEnd = .ok ms' ∧
      process.exec (sysBrk kernel newBrk) = (.ok newBrk, { process with
        memorySet := ms'
        mm := { process.mm with programBreak := newBrk, mappedBreak := newMappedEnd } }) := by
  simp only [sysBrk, exec_get]
  split
  case isTrue => exact .inl rfl
  case isFalse =>
    split
    case h_1 => exact .inl rfl
    case h_2 newMappedEnd ha =>
      split
      case isTrue => exact .inl rfl
      case isFalse =>
        split
        case h_1 => exact .inl rfl
        case h_2 ms' hg => exact .inr ⟨newMappedEnd, ms', ha, hg, rfl⟩

theorem HeapInv.brkExact {process : Process} (h : HeapInv process.memorySet process.mm) (kernel : Kernel)
    (newBrk : Nat) : BrkExact newBrk process (process.exec (sysBrk kernel newBrk)).1
      (process.exec (sysBrk kernel newBrk)).2 := by
  rcases exec_sysBrk process kernel newBrk with he | ⟨newMappedEnd, ms', ha, hg, he⟩
  case inl =>
    rw [he]
    exact ⟨rfl, h.breaks, fun _ => .refl process, fun _ => rfl⟩
  case inr =>
    rw [he]
    exact ⟨rfl, ha, fun _ => .of_growHeap h ha hg, fun hne => absurd rfl hne⟩

section Keeps

open Hoare SyscallM

variable {α : Type} {mm : MmContext} {cached : Ppn → Prop} {process process' : Process} {flags : PTEFlags}

abbrev KeepsHeap (call : SyscallM α) : Prop :=
  Keeps (fun process => HeapInv process.memorySet process.mm) call

theorem HeapInv.step (h : HeapInv ms mm) (hs : AnyStep cached ms ms') (hsorted : Sorted ms'.areas) :
    HeapInv ms' mm :=
  ⟨h.toCoherent.step hs hsorted, h.breaks⟩

theorem HeapInv.unmapRange (h : HeapInv ms mm) (hu : ms.unmapRange start stop = .ok ms') : HeapInv ms' mm := by
  have hstep : AnyStep (fun _ => True) ms ms' := MemorySet.unmapRange_step hu
  exact h.step hstep (MemorySet.unmapRange_sorted h.toWF hu)

theorem HeapInv.protectRange {refCount : Ppn → Nat} (h : HeapInv ms mm) (hu : flags.u)
    (hp : MemorySet.protectRange refCount ms start stop flags = .ok ms') : HeapInv ms' mm := by
  have hstep : AnyStep (fun _ => True) ms ms' :=
    MemorySet.protectRange_step hu hp fun _ _ _ _ _ _ _ _ => trivial
  exact h.step hstep (MemorySet.protectRange_sorted h.toWF hp)

theorem HeapInv.discardAnonymousRange {discarded : Nat} (h : HeapInv ms mm)
    (hd : ms.discardAnonymousRange start stop = .ok (ms', discarded)) : HeapInv ms' mm := by
  have hstep : AnyStep (fun _ => True) ms ms' := MemorySet.discardAnonymousRange_step hd
  exact h.step hstep (MemorySet.discardAnonymousRange_sorted h.toWF hd)

theorem sysBrk_keepsHeap (newBrk : Nat) : KeepsHeap (sysBrk kernel newBrk) := by
  mvcgen [sysBrk]
  rename_i h _ _ _ _ ha _ _ hg _
  exact ⟨growHeap_coherent h.toCoherent hg, ha⟩

theorem sysMprotect_keepsHeap (addr len : Nat) (prot : BitVec 32) :
    KeepsHeap (sysMprotect kernel addr len prot) := by
  mvcgen [sysMprotect, failIf, ofResult, tryMemorySet]
  rename_i h _ _ hflags _ _ _ he
  exact h.protectRange (protToPteFlags_user hflags).1 he

theorem sysMadvise_keepsHeap (addr len : Nat) (advice : BitVec 32) :
    KeepsHeap (sysMadvise addr len advice) := by
  mvcgen [sysMadvise, failIf, ofResult, tryMemorySet]
  rename_i process h _ _ range _ _ he
  cases hd : process.memorySet.discardAnonymousRange range.1 range.2
  case error => simp [hd] at he
  case ok discarded =>
    simp only [hd, Except.map_ok, Except.ok.injEq] at he
    exact he ▸ h.discardAnonymousRange hd

theorem sysMunmap_keepsHeap (addr length : Nat) : KeepsHeap (sysMunmap kernel addr length) := by
  mvcgen [sysMunmap, flushRange, failIf, ofResult, tryMemorySet]
  rename_i h _ _ _ _ _ _ _ he
  exact h.unmapRange he

theorem Cleared.heapInv {request : MmapRequest} (hc : Cleared request start stop process process')
    (h : HeapInv process.memorySet process.mm) : HeapInv process'.memorySet process'.mm := by
  cases hc
  case inl he => exact he ▸ h
  case inr hc =>
    have ⟨_, ms, hu, he⟩ := hc
    subst he
    exact h.unmapRange hu

theorem place_keepsHeap (request : MmapRequest) (arch : Arch) (hlt : start < stop) :
    ⦃fun process => ⌜HeapInv process.memorySet process.mm⌝⦄ request.place arch start stop
    ⦃post⟨fun range process => ⌜HeapInv process.memorySet process.mm ∧
        process.memorySet.RangeFree range.1 range.2⌝,
      fun _ process => ⌜HeapInv process.memorySet process.mm⌝⟩⦄ := by
  mvcgen [place_cases]
  case vc1 =>
    rename_i h _ _
    exact fun hc hfree => ⟨hc.heapInv h, hfree⟩
  case vc2 =>
    rename_i h _ _
    exact fun he => he ▸ h
  case vc3 => exact fun _ _ => hlt
  case vc4 => exact fun _ h => h.toWF

-- Pages of shared file mappings are never copied on write, so their entries stay when they get dirty.
theorem markDirty_step (pageIdx : Nat) (pageTable : PageTable) (hw : area.WF) :
    AreaStep (fun _ _ => True) cached (fun _ _ => True) area (MemorySet.markDirty area pageIdx)
      pageTable pageTable where
  wf := MemorySet.markDirty_wf pageIdx hw
  user hu := by
    simp only [MemorySet.markDirty]
    split <;> exact hu
  backed vpn pte he := by
    refine (Classical.em (area.Backs vpn pte)).imp ?_ fun hn => ⟨he, hn⟩
    rintro ⟨hl, page, hpage, hpte⟩
    simp only [MemorySet.markDirty]
    split
    case h_2 => exact ⟨hl, page, hpage, hpte⟩
    case h_1 hb =>
      obtain ⟨n, hv, hn⟩ := MapArea.pageAt_eq_some.mp hpage
      have hstate : page.state ≠ .cow := fun hc => by
        have := hw.cow_private n page hn hc
        simp [hb, MapAreaBacking.isPrivate] at this
      refine ⟨hl, if n = pageIdx then { page with state := .fileDirty } else page,
        MapArea.pageAt_eq_some.mpr ⟨n, hv, ?_⟩, ?_⟩
      case refine_1 =>
        simp only [MapArea.setResidentState, ResidentSet.update_lookup hw.resident, hn]
        split <;> rfl
      case refine_2 =>
        rw [← hpte]
        split
        case isFalse => rfl
        case isTrue => simp [pteOf, effectiveMappingFlagsForPage, hstate, MapArea.setResidentState]
  derived _ _ _ := .inl trivial

theorem writeBytesFrom_heapInv (dst : Nat) (src : List UInt8) (fuel copied : Nat) (frames : Frames)
    (h : HeapInv ms mm) : HeapInv (MemorySet.writeBytesFrom dst src fuel copied ms frames).1 mm := by
  induction fuel generalizing copied ms frames
  case zero => exact h
  case succ fuel hi =>
    simp only [MemorySet.writeBytesFrom]
    split
    case isFalse => exact h
    case isTrue =>
      split
      case h_1 => exact h
      case h_2 =>
        split
        case h_1 => exact h
        case h_2 i area hc =>
          split
          case h_1 => exact h
          case h_2 =>
            have hget := (MemorySet.areaContaining_sound hc).1
            have hwa := h.areas area (MemorySet.areaContaining_mem hc)
            have hstep (pageIdx : Nat) : AnyStep (fun _ => True) ms
                { ms with areas := ms.areas.set i (MemorySet.markDirty area pageIdx) } :=
              Step.set hget fun hw => markDirty_step pageIdx ms.pageTable hw
            exact hi _ _ (h.step (hstep _)
              (h.toWF.set hget (MemorySet.markDirty_wf _ hwa) (MemorySet.markDirty_range _)).sorted)

theorem insert_keepsHeap (request : MmapRequest) (backing : MapAreaBacking)
    (fileData : Option (List UInt8)) (lazyCleanMmap : Bool)
    (hf : request.pteFlags.u ∧ ¬request.pteFlags.cow) :
    ⦃fun process => ⌜HeapInv process.memorySet process.mm ∧ process.memorySet.RangeFree start stop⌝⦄
    request.insert start stop backing fileData lazyCleanMmap
    ⦃post⟨fun _ process => ⌜HeapInv process.memorySet process.mm⌝,
      fun _ process => ⌜HeapInv process.memorySet process.mm⌝⟩⦄ := by
  have hframed : ∀ {process : Process}, HeapInv process.memorySet process.mm →
      process.memorySet.RangeFree start stop → HeapInv (process.memorySet.insertFramedAreaWithBacking
        process.frames start stop request.pteFlags backing).1 process.mm := fun {process} h hfree => by
    have hstep : AnyStep (fun _ => True) process.memorySet (process.memorySet.insertFramedAreaWithBacking
        process.frames start stop request.pteFlags backing).1 :=
      MemorySet.insertFramedAreaWithBacking_step process.frames start stop hf.1 hf.2 fun _ _ => trivial
    exact h.step hstep (MemorySet.insertFramedAreaWithBacking_sorted h.toWF hfree hf.2)
  mvcgen [MmapRequest.insert, onMemorySet, ofResult, tryMemorySet]
  case vc1 =>
    rename_i h _ he
    have hstep : AnyStep (fun _ => True) _ _ := MemorySet.insertLazyAreaWithBacking_step hf.1 he
    exact h.1.step hstep (MemorySet.insertLazyAreaWithBacking_sorted h.1.toWF h.2 he)
  case vc2 =>
    rename_i h _ _
    exact h.1
  case vc3 | vc4 =>
    rename_i h _ _ _ _ _ _
    exact writeBytesFrom_heapInv _ _ _ _ _ (hframed h.1 h.2)
  case vc5 =>
    rename_i h _ _ _
    exact hframed h.1 h.2
  case vc6 =>
    rename_i h _ _
    exact hframed h.1 h.2

theorem flush_keepsHeap (request : MmapRequest) : KeepsHeap (request.flush kernel start stop) := by
  mvcgen [MmapRequest.flush, flushRange, ofResult]

-- The cursors of the arenas do not concern the heap.
theorem HeapInv.advance (h : HeapInv ms mm) (start stop : Nat) : HeapInv ms (mm.advance start stop) := by
  refine ⟨h.toCoherent, ?_⟩
  simp only [MmContext.advance]
  split <;> exact h.breaks

theorem sysMmap_keepsHeap (addr length : Nat) (prot flagsArg : BitVec 32) (fd : Int) (offset : Nat) :
    KeepsHeap (sysMmap kernel addr length prot flagsArg fd offset) := by
  mvcgen [sysMmap, failIf, okOr, ofResult, flush_keepsHeap, place_keepsHeap, insert_keepsHeap]
  case vc8 =>
    rename_i hmappable _ _ _ _ _
    exact lt_of_mappable (by simpa using hmappable)
  case vc10 =>
    rename_i hrequest _ _ _ _ _ _ _ _ _ _ _ _ _ _ _ _ _
    exact ofArgs_user hrequest
  case vc12 =>
    rename_i range _ _ _ _ h _
    exact h.advance range.1 range.2

theorem unmapRanges_keepsHeap (ranges : List (Nat × Nat)) : KeepsHeap (unmapRanges ranges) := by
  induction ranges
  case nil => mvcgen [unmapRanges]
  case cons range ranges hi =>
    mvcgen [unmapRanges, tryMemorySet, hi]
    rename_i h _ he
    exact h.unmapRange he

theorem sysFork_keepsHeap :
    ⦃fun process => ⌜HeapInv process.memorySet process.mm⌝⦄ sysFork
    ⦃post⟨fun child process => ⌜HeapInv process.memorySet process.mm ∧ HeapInv child.memorySet child.mm⌝,
      fun _ process => ⌜HeapInv process.memorySet process.mm⌝⟩⦄ := by
  mvcgen [sysFork, ofResult]
  case vc1 =>
    rename_i h _ hc
    exact ⟨⟨MemorySet.forkCow_coherent _ h.toCoherent, h.breaks⟩,
      (MemorySet.forkCow_spec _ h.areas).child_coherent h.toCoherent hc, h.breaks⟩
  case vc2 =>
    rename_i h _ _
    exact ⟨MemorySet.forkCow_coherent _ h.toCoherent, h.breaks⟩

theorem shmatStart_keepsHeap (shmaddr : Nat) (shmflg : BitVec 32) (mapLen : Nat) :
    KeepsHeap (shmatStart kernel shmaddr shmflg mapLen) := by
  mvcgen [shmatStart, failIf, okOr]

theorem shmPlace_keepsHeap (remap : Bool) (shmaddr : Nat) :
    KeepsHeap (shmPlace kernel remap shmaddr start stop) := by
  mvcgen [shmPlace, flushRange, failIf, ofResult, tryMemorySet]
  rename_i h _ _ _ _ he
  exact h.unmapRange he

theorem shmAttach_keepsHeap (shmid shmaddr : Nat) (shmflg : BitVec 32) (frames : List Ppn) :
    KeepsHeap (shmAttach kernel shmid shmaddr shmflg frames) := by
  mvcgen [shmAttach, shmatStart_keepsHeap, shmPlace_keepsHeap, failIf, okOr, tryMemorySet]
  rename_i h _ he _
  have hstep : AnyStep (fun _ => True) _ _ :=
    MemorySet.insertSharedFramedArea_step rfl Bool.false_ne_true (fun _ _ => trivial) he
  exact (h.step hstep (MemorySet.insertSharedFramedArea_sorted h.toWF he)).advance _ _

theorem sysShmat_keepsHeap (shmid shmaddr : Nat) (shmflg : BitVec 32) :
    KeepsHeap (sysShmat kernel shmid shmaddr shmflg) := by
  mvcgen [sysShmat, failIf, okOr, shmAttach_keepsHeap]

theorem sysShmdt_keepsHeap (shmaddr : Nat) : KeepsHeap (sysShmdt kernel shmaddr) := by
  mvcgen [sysShmdt, failIf, okOr, unmapRanges_keepsHeap]

theorem pageFault_keepsHeap (addr : Nat) (access : Access) (henv : kernel.env.Lawful cached) :
    KeepsHeap (pageFault kernel addr access) := by
  mvcgen [pageFault, ofResult]
  rename_i h _ he
  exact ⟨(MemorySet.handlePageFault_resolution h.areas henv he).coherent h.toCoherent, h.breaks⟩

theorem body_keepsHeap (call : Syscall) (henv : kernel.env.Lawful cached) : KeepsHeap (call.body kernel) := by
  cases call
  case mmap => mvcgen [Syscall.body, sysMmap_keepsHeap]
  case munmap => mvcgen [Syscall.body, sysMunmap_keepsHeap]
  case mprotect => mvcgen [Syscall.body, sysMprotect_keepsHeap]
  case madvise => mvcgen [Syscall.body, sysMadvise_keepsHeap]
  case brk => mvcgen [Syscall.body, sysBrk_keepsHeap]
  case shmat => mvcgen [Syscall.body, sysShmat_keepsHeap]
  case shmdt => mvcgen [Syscall.body, sysShmdt_keepsHeap]
  case fork =>
    mvcgen [Syscall.body, sysFork_keepsHeap]
    rename_i h
    exact h.1
  case pageFault addr access => exact pageFault_keepsHeap addr access henv

end Keeps

namespace Process

variable {process process' : Process}

theorem Run.heapInv (h : Run process process') (hi : HeapInv process.memorySet process.mm) :
    HeapInv process'.memorySet process'.mm := by
  induction h
  case refl => exact hi
  case syscall call _ henv hi => exact (body_keepsHeap call henv).run hi
  case child q child _ hc hi =>
    have hspec := Hoare.post_of_triple sysFork_keepsHeap hi
    split at hspec
    case h_1 child' q' he =>
      simp only [exec, he, Except.ok.injEq] at hc
      exact hc ▸ hspec.2
    case h_2 he =>
      simp only [exec, he, reduceCtorEq] at hc
  case others hi => exact hi

-- A process may ask for any break at any time.
theorem run_brkExact (process process' : Process) (hi : HeapInv process.memorySet process.mm)
    (h : Run process process') (kernel : Kernel) (newBrk : Nat) :
    alignUp process'.mm.programBreak = some process'.mm.mappedBreak ∧
    BrkExact newBrk process' (process'.exec (sysBrk kernel newBrk)).1 (process'.exec (sysBrk kernel newBrk)).2 :=
  ⟨(h.heapInv hi).breaks, (h.heapInv hi).brkExact kernel newBrk⟩

-- The heap of a new process grows by two pages, and gives the second one of them back afterwards.
theorem grown_brkExact : grown.mm.mappedBreak = 0x10002000 ∧
    (grown.exec (sysBrk bareKernel 0x10000fff)).2.mm.mappedBreak = 0x10001000 ∧
    BrkExact 0x10000fff grown (grown.exec (sysBrk bareKernel 0x10000fff)).1
      (grown.exec (sysBrk bareKernel 0x10000fff)).2 := by
  have hlawful : bareKernel.env.Lawful (fun _ => True) :=
    ⟨fun _ => Nat.one_pos, by simp [bareKernel, World.noFiles]⟩
  have hrun : Run bare grown := .syscall _ (.syscall _ (.refl bare) hlawful) hlawful
  have hinv : HeapInv bare.memorySet bare.mm := ⟨MemorySet.Coherent.newBare, by decide_cbv⟩
  exact ⟨by decide_cbv, by decide_cbv, (run_brkExact bare grown hinv hrun bareKernel 0x10000fff).2⟩

end Process

end WllOs
