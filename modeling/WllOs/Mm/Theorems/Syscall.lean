import WllOs.Library.Hoare
import WllOs.Mm.Syscall
import WllOs.Mm.Theorems.Coherence

set_option mvcgen.warning false

open Std.Do

namespace WllOs

variable {α : Type} {ms ms' : MemorySet} {start stop startVa endVa : Nat} {flags permission : PTEFlags}
variable {area : MapArea} {backing : MapAreaBacking} {frames frames' : Frames} {cached : Ppn → Prop}
variable {kernel : Kernel}

namespace MemorySet

theorem WF.step (h : ms.WF) (hs : AnyStep cached ms ms') (hsorted : Sorted ms'.areas) : ms'.WF :=
  ⟨hs.wf h.areas, hsorted⟩

-- Areas are page-aligned, so an area that overlaps one of the pages of a range overlaps the range itself.
theorem rangeFree_of_not_overlaps (hw : ms.WF)
    (h : ∀ a ∈ ms.areas, ¬a.overlaps start stop) : ms.RangeFree start stop := by
  intro start' stop' hr a ha ho
  have ⟨hstart, hstop, _⟩ := pageRange_eq_some hr
  simp only [alignUp, Option.map_eq_some_iff, Usize.checkedAdd_eq_some] at hstop
  obtain ⟨_, ⟨rfl, _⟩, rfl⟩ := hstop
  have ho := overlaps_iff.mp ho
  have hs := (hw.areas a ha).start_aligned
  have he := (hw.areas a ha).end_aligned
  refine h a ha (overlaps_iff.mpr ?_)
  simp only [alignDown, pageSize] at *
  omega

theorem unmapRange_wf (hw : ms.WF) (h : ms.unmapRange start stop = .ok ms') : ms'.WF := by
  have hstep : AnyStep (fun _ => True) ms ms' := unmapRange_step h
  exact hw.step hstep (unmapRange_sorted hw h)

theorem unmapRange_aligned (h : ms.unmapRange start stop = .ok ms') :
    start < stop ∧ start % pageSize = 0 ∧ stop % pageSize = 0 := by
  simp only [unmapRange] at h
  split at h
  case isTrue => cases h
  case isFalse hr =>
    simp only [Bool.or_eq_true, decide_eq_true_eq] at hr
    omega

theorem unmapRange_rangeFree (hw : ms.WF) (h : ms.unmapRange start stop = .ok ms') :
    ms'.RangeFree start stop := by
  have ⟨hlt, hs, he⟩ := unmapRange_aligned h
  refine rangeFree_of_not_overlaps (unmapRange_wf hw h) fun a ha ho => ?_
  -- An area that overlaps the range has a page in it.
  have ⟨h₁, h₂⟩ := overlaps_iff.mp ho
  have := (unmapRange_wf hw h).areas a ha |>.start_lt_end
  have ⟨addr, h₃, h₄, h₅, h₆⟩ : ∃ addr, a.startVa ≤ addr ∧ addr < a.endVa ∧ start ≤ addr ∧ addr < stop :=
    ⟨max a.startVa start, by omega⟩
  have hnone : ms'.meaning (addr / pageSize) = none := by
    rw [unmapRange_meaning hw hs he h, if_pos]
    simp only [pageSize] at *
    omega
  exact (meaning_eq_none (unmapRange_wf hw h)).mp hnone a ha ⟨h₃, h₄⟩

theorem insertLazyAreaWithBacking_wf (hw : ms.WF) (hf : ms.RangeFree startVa endVa) (hu : permission.u)
    (h : ms.insertLazyAreaWithBacking startVa endVa permission backing = .ok ms') : ms'.WF := by
  have hstep : AnyStep (fun _ => True) ms ms' := insertLazyAreaWithBacking_step hu h
  exact hw.step hstep (insertLazyAreaWithBacking_sorted hw hf h)

theorem insertFramedAreaWithBacking_wf (frames : Frames) (backing : MapAreaBacking) (hw : ms.WF)
    (hf : ms.RangeFree startVa endVa) (hu : permission.u) (hc : ¬permission.cow) :
    (ms.insertFramedAreaWithBacking frames startVa endVa permission backing).1.WF := by
  have hstep : AnyStep (fun _ => True) ms
      (ms.insertFramedAreaWithBacking frames startVa endVa permission backing).1 :=
    insertFramedAreaWithBacking_step frames startVa endVa hu hc fun _ _ => trivial
  exact hw.step hstep (insertFramedAreaWithBacking_sorted hw hf hc)

theorem insertSharedFramedArea_wf {shared : List Ppn} (hw : ms.WF) (hu : permission.u)
    (hc : ¬permission.cow) {shmid base offset : Nat}
    (h : ms.insertSharedFramedArea startVa endVa permission (.sharedMemory shmid base offset) shared = .ok ms') :
    ms'.WF := by
  have hstep : AnyStep (fun _ => True) ms ms' :=
    insertSharedFramedArea_step hu hc (fun _ _ => trivial) h
  exact hw.step hstep (insertSharedFramedArea_sorted hw h)

theorem protectRange_wf {refCount : Ppn → Nat} (hw : ms.WF) (hu : flags.u)
    (h : protectRange refCount ms start stop flags = .ok ms') : ms'.WF := by
  have hstep : AnyStep (fun _ => True) ms ms' := protectRange_step hu h fun _ _ _ _ _ _ _ _ => trivial
  exact hw.step hstep (protectRange_sorted hw h)

theorem discardAnonymousRange_wf {discarded : Nat} (hw : ms.WF)
    (h : ms.discardAnonymousRange start stop = .ok (ms', discarded)) : ms'.WF := by
  have hstep : AnyStep (fun _ => True) ms ms' := discardAnonymousRange_step h
  exact hw.step hstep (discardAnonymousRange_sorted hw h)

theorem handlePageFault_wf {env : Env} {addr : Nat} {isStore isExec : Bool} (hw : ms.WF)
    (henv : env.Lawful cached)
    (h : handlePageFault env ms frames addr isStore isExec = .ok (ms', frames')) : ms'.WF := by
  have hr : Resolution cached (fun _ _ => False) ms frames ms' frames' :=
    handlePageFault_resolution hw.areas henv h
  exact hr.wf hw

theorem forkCow_wf (frames : Frames) (hw : ms.WF) : (ms.forkCow frames).1.WF := by
  have hstep : AnyStep (fun _ => True) ms (ms.forkCow frames).1 := forkCow_step frames hw.areas
  exact hw.step hstep (hw.sorted.of_range (forkCow_spec frames hw.areas).range)

theorem WF.set {i : Nat} {area' : MapArea} (hw : ms.WF) (hi : ms.areas[i]? = some area) (ha : area'.WF)
    (hr : area'.range = area.range) : WF { ms with areas := ms.areas.set i area' } where
  areas a hm := (List.mem_or_eq_of_mem_set hm).elim (hw.areas a) fun he => he ▸ ha
  sorted := hw.sorted.of_range (by
    simp only [Lists.set_split hi, hr, List.map_append, List.map_cons]
    conv => rhs; rw [Lists.split_at hi]
    simp)

theorem markDirty_wf (pageIdx : Nat) (h : area.WF) : (markDirty area pageIdx).WF := by
  simp only [markDirty]
  split
  case h_1 => exact h.update fun _ _ hs => by cases hs
  case h_2 => exact h

theorem markDirty_range (pageIdx : Nat) : (markDirty area pageIdx).range = area.range := by
  simp only [markDirty]
  split <;> rfl

theorem writeBytesFrom_wf (dst : Nat) (src : List UInt8) (fuel copied : Nat) (frames : Frames)
    (hw : ms.WF) : (writeBytesFrom dst src fuel copied ms frames).1.WF := by
  induction fuel generalizing copied ms frames
  case zero => exact hw
  case succ fuel hi =>
    simp only [writeBytesFrom]
    split
    case isFalse => exact hw
    case isTrue =>
      split
      case h_1 => exact hw
      case h_2 addr _ =>
        split
        case h_1 => exact hw
        case h_2 i area hc =>
          have hwa := hw.areas area (areaContaining_mem hc)
          have hget := (areaContaining_sound hc).1
          split
          case h_1 => exact hw
          case h_2 =>
            exact hi _ _ (hw.set hget (markDirty_wf _ hwa) (markDirty_range _))

end MemorySet

-- The flags of user mappings.
theorem protToPteFlags_user {prot : BitVec 32} (h : protToPteFlags prot = .ok flags) :
    flags.u ∧ ¬flags.cow := by
  simp only [protToPteFlags] at h
  split at h
  case isTrue => cases h
  case isFalse =>
    cases h
    exact ⟨rfl, nofun⟩

section Keeps

open Hoare SyscallM

abbrev KeepsAreas (call : SyscallM α) : Prop :=
  Keeps (·.memorySet.WF) call

theorem sysMprotect_keeps (addr len : Nat) (prot : BitVec 32) :
    KeepsAreas (sysMprotect kernel addr len prot) := by
  mvcgen [sysMprotect, failIf, ofResult, tryMemorySet]
  rename_i hw _ _ hflags _ _ _ he
  exact MemorySet.protectRange_wf hw (protToPteFlags_user hflags).1 he

theorem sysMadvise_keeps (addr len : Nat) (advice : BitVec 32) :
    KeepsAreas (sysMadvise addr len advice) := by
  mvcgen [sysMadvise, failIf, ofResult, tryMemorySet]
  rename_i process hw _ _ range _ _ he
  cases hd : process.memorySet.discardAnonymousRange range.1 range.2
  case error => simp [hd] at he
  case ok discarded =>
    simp only [hd, Except.map_ok, Except.ok.injEq] at he
    exact he ▸ MemorySet.discardAnonymousRange_wf hw hd

theorem sysMunmap_keeps (addr length : Nat) : KeepsAreas (sysMunmap kernel addr length) := by
  mvcgen [sysMunmap, flushRange, failIf, ofResult, tryMemorySet]
  rename_i hw _ _ _ _ _ _ _ he
  exact MemorySet.unmapRange_wf hw he

theorem growHeap_wf {mappedBreak newMappedEnd : Nat} (hw : ms.WF)
    (h : sysBrk.growHeap ms mappedBreak newMappedEnd = .ok ms') : ms'.WF := by
  simp only [sysBrk.growHeap] at h
  split at h
  case isTrue hlt =>
    split at h
    case isTrue => cases h
    case isFalse hno =>
      have hfree := (MemorySet.rangeOverlaps_eq_false hw hlt).mp (Bool.eq_false_iff.mpr hno)
      exact MemorySet.insertLazyAreaWithBacking_wf hw (MemorySet.rangeFree_of_not_overlaps hw hfree) rfl h
  case isFalse =>
    split at h
    case isTrue => exact MemorySet.unmapRange_wf hw h
    case isFalse =>
      cases h
      exact hw

theorem sysBrk_keeps (newBrk : Nat) : KeepsAreas (sysBrk kernel newBrk) := by
  mvcgen [sysBrk]
  rename_i hw _ _ _ _ _ _ _ he _
  exact growHeap_wf hw he

theorem lt_of_mappable {arch : Arch} (h : arch.isUserMappableRange start stop) : start < stop := by
  simp only [Arch.isUserMappableRange, UserVaRange.containsRange, Bool.or_eq_true, Bool.and_eq_true,
    decide_eq_true_eq] at h
  omega

-- Before a mapping is inserted, its range is checked or cleared.
def Cleared (request : MmapRequest) (start stop : Nat) (before after : Process) : Prop :=
  after = before ∨ (request.mapFixed && !request.noReplace) = true ∧
    ∃ ms, before.memorySet.unmapRange start stop = .ok ms ∧ after = { before with memorySet := ms }

theorem place_cases {process : Process} (request : MmapRequest) (arch : Arch) (hlt : start < stop)
    (hw : process.memorySet.WF) :
    ⦃fun before => ⌜before = process⌝⦄ request.place arch start stop
    ⦃post⟨fun range after => ⌜Cleared request start stop process after ∧
        after.memorySet.RangeFree range.1 range.2⌝,
      fun _ after => ⌜after = process⌝⟩⦄ := by
  have hfree {start stop : Nat} (hlt : start < stop) (hno : ¬process.memorySet.rangeOverlaps start stop) :
      process.memorySet.RangeFree start stop :=
    MemorySet.rangeFree_of_not_overlaps hw <|
      (MemorySet.rangeOverlaps_eq_false hw hlt).mp (Bool.eq_false_iff.mpr hno)
  mvcgen [MmapRequest.place, failIf, okOr, tryMemorySet]
  case vc2 =>
    rename_i before hb _ _ hfixed ms he
    subst hb
    exact ⟨.inr ⟨hfixed, ms, he, rfl⟩, MemorySet.unmapRange_rangeFree hw he⟩
  case vc5 =>
    rename_i before hb _ _ _ _ _ _ _ _ hno
    subst hb
    simp only [Bool.or_eq_true, Bool.not_eq_true', not_or, Bool.not_eq_false] at hno
    exact ⟨.inl rfl, hfree (lt_of_mappable hno.1) hno.2⟩
  case vc8 =>
    rename_i before hb overlaps h₁ h₂ h₃
    subst hb
    refine ⟨.inl rfl, hfree hlt fun ho => ?_⟩
    have ho : overlaps = true := ho
    cases hn : request.noReplace <;> cases hm : request.mapFixed <;>
      simp_all [MmapRequest.fixedAddr]

theorem Cleared.wf {request : MmapRequest} {before after : Process} (h : Cleared request start stop before after)
    (hw : before.memorySet.WF) : after.memorySet.WF := by
  cases h
  case inl he => exact he ▸ hw
  case inr h =>
    have ⟨_, ms, hu, he⟩ := h
    subst he
    exact MemorySet.unmapRange_wf hw hu

theorem place_spec (request : MmapRequest) (arch : Arch) (hlt : start < stop) :
    ⦃fun process => ⌜process.memorySet.WF⌝⦄ request.place arch start stop
    ⦃post⟨fun range process => ⌜process.memorySet.WF ∧ process.memorySet.RangeFree range.1 range.2⌝,
      fun _ process => ⌜process.memorySet.WF⌝⟩⦄ := by
  mvcgen [place_cases]
  case vc1 =>
    rename_i hw _ _
    exact fun hc hfree => ⟨hc.wf hw, hfree⟩
  case vc2 =>
    rename_i hw _ _
    exact fun he => he ▸ hw
  case vc3 => exact fun _ _ => hlt
  case vc4 => exact fun _ hw => hw

theorem insert_keeps (request : MmapRequest) (backing : MapAreaBacking) (fileData : Option (List UInt8))
    (lazyCleanMmap : Bool) (hf : request.pteFlags.u ∧ ¬request.pteFlags.cow) :
    ⦃fun process => ⌜process.memorySet.WF ∧ process.memorySet.RangeFree start stop⌝⦄
    request.insert start stop backing fileData lazyCleanMmap
    ⦃post⟨fun _ process => ⌜process.memorySet.WF⌝, fun _ process => ⌜process.memorySet.WF⌝⟩⦄ := by
  have hframed : ∀ {process : Process}, process.memorySet.WF →
      process.memorySet.RangeFree start stop → (process.memorySet.insertFramedAreaWithBacking
        process.frames start stop request.pteFlags backing).1.WF := fun hw hfree =>
    MemorySet.insertFramedAreaWithBacking_wf _ backing hw hfree hf.1 hf.2
  mvcgen [MmapRequest.insert, onMemorySet, ofResult, tryMemorySet]
  case vc1 =>
    rename_i hw _ he
    exact MemorySet.insertLazyAreaWithBacking_wf hw.1 hw.2 hf.1 he
  case vc2 =>
    rename_i hw _ _
    exact hw.1
  case vc3 | vc4 =>
    rename_i hw _ _ _ _ _ _
    exact MemorySet.writeBytesFrom_wf _ _ _ _ _ (hframed hw.1 hw.2)
  case vc5 =>
    rename_i hw _ _ _
    exact hframed hw.1 hw.2
  case vc6 =>
    rename_i hw _ _
    exact hframed hw.1 hw.2

theorem ofArgs_user {addr length : Nat} {prot flagsArg : BitVec 32} {request : MmapRequest}
    (h : MmapRequest.ofArgs addr length prot flagsArg = .ok request) :
    request.pteFlags.u ∧ ¬request.pteFlags.cow := by
  simp only [MmapRequest.ofArgs, bind, Except.bind] at h
  cases hv : validateMmapFlags (flagsArg.signExtend 64) <;> simp only [hv, reduceCtorEq] at h
  cases ht : mmapType (flagsArg.signExtend 64) <;> simp only [ht, reduceCtorEq] at h
  cases hp : protToPteFlags prot <;> simp only [hp, reduceCtorEq] at h
  cases hl : alignUpResult length <;> simp only [hl, reduceCtorEq] at h
  cases h
  exact protToPteFlags_user hp

theorem flush_keeps (request : MmapRequest) : KeepsAreas (request.flush kernel start stop) := by
  mvcgen [MmapRequest.flush, flushRange, ofResult]

theorem sysMmap_keeps (addr length : Nat) (prot flagsArg : BitVec 32) (fd : Int) (offset : Nat) :
    KeepsAreas (sysMmap kernel addr length prot flagsArg fd offset) := by
  mvcgen [sysMmap, failIf, okOr, ofResult, flush_keeps, place_spec, insert_keeps]
  case vc8 =>
    rename_i hmappable _ _ _ _ _
    exact lt_of_mappable (by simpa using hmappable)
  case vc10 =>
    rename_i hrequest _ _ _ _ _ _ _ _ _ _ _ _ _ _ _ _ _
    exact ofArgs_user hrequest

theorem unmapRanges_keeps (ranges : List (Nat × Nat)) : KeepsAreas (unmapRanges ranges) := by
  induction ranges
  case nil => mvcgen [unmapRanges]
  case cons range ranges hi =>
    mvcgen [unmapRanges, tryMemorySet, hi]
    rename_i hw _ he
    exact MemorySet.unmapRange_wf hw he

-- The child of a fork is well-formed as well.
theorem sysFork_spec :
    ⦃fun process => ⌜process.memorySet.WF⌝⦄ sysFork
    ⦃post⟨fun child process => ⌜process.memorySet.WF ∧ child.memorySet.WF⌝,
      fun _ process => ⌜process.memorySet.WF⌝⟩⦄ := by
  mvcgen [sysFork, ofResult]
  case vc1 =>
    rename_i hw _ hc
    exact ⟨MemorySet.forkCow_wf _ hw, ((MemorySet.forkCow_spec _ hw.areas).child_wf hw hc).1⟩
  case vc2 =>
    rename_i hw _ _
    exact MemorySet.forkCow_wf _ hw

theorem shmatStart_keeps (shmaddr : Nat) (shmflg : BitVec 32) (mapLen : Nat) :
    KeepsAreas (shmatStart kernel shmaddr shmflg mapLen) := by
  mvcgen [shmatStart, failIf, okOr]

theorem shmPlace_keeps (remap : Bool) (shmaddr : Nat) :
    KeepsAreas (shmPlace kernel remap shmaddr start stop) := by
  mvcgen [shmPlace, flushRange, failIf, ofResult, tryMemorySet]
  rename_i hw _ _ _ _ he
  exact MemorySet.unmapRange_wf hw he

theorem shmAttach_keeps (shmid shmaddr : Nat) (shmflg : BitVec 32) (frames : List Ppn) :
    KeepsAreas (shmAttach kernel shmid shmaddr shmflg frames) := by
  mvcgen [shmAttach, shmatStart_keeps, shmPlace_keeps, failIf, okOr, tryMemorySet]
  rename_i hw _ he _
  exact MemorySet.insertSharedFramedArea_wf hw rfl Bool.false_ne_true he

theorem sysShmat_keeps (shmid shmaddr : Nat) (shmflg : BitVec 32) :
    KeepsAreas (sysShmat kernel shmid shmaddr shmflg) := by
  mvcgen [sysShmat, failIf, okOr, shmAttach_keeps]

theorem sysShmdt_keeps (shmaddr : Nat) : KeepsAreas (sysShmdt kernel shmaddr) := by
  mvcgen [sysShmdt, failIf, okOr, unmapRanges_keeps]

theorem pageFault_keeps (addr : Nat) (access : Access) (henv : kernel.env.Lawful cached) :
    KeepsAreas (pageFault kernel addr access) := by
  mvcgen [pageFault, ofResult]
  rename_i hw _ he
  exact MemorySet.handlePageFault_wf hw henv he

theorem body_keeps (call : Syscall) (henv : kernel.env.Lawful cached) : KeepsAreas (call.body kernel) := by
  cases call
  case mmap => mvcgen [Syscall.body, sysMmap_keeps]
  case munmap => mvcgen [Syscall.body, sysMunmap_keeps]
  case mprotect => mvcgen [Syscall.body, sysMprotect_keeps]
  case madvise => mvcgen [Syscall.body, sysMadvise_keeps]
  case brk => mvcgen [Syscall.body, sysBrk_keeps]
  case shmat => mvcgen [Syscall.body, sysShmat_keeps]
  case shmdt => mvcgen [Syscall.body, sysShmdt_keeps]
  case fork => 
    mvcgen [Syscall.body, sysFork_spec]
    rename_i h
    exact h.1
  case pageFault addr access => exact pageFault_keeps addr access henv

end Keeps

theorem MemorySet.WF.ordered (h : ms.WF) : ms.Ordered where
  sorted := h.sorted.imp_of_mem fun {a b} ha _ hab => Nat.lt_of_lt_of_le (h.areas a ha).start_lt_end hab
  disjoint := h.sorted.imp fun hab addr hc => by
    simp only [MapArea.contains_iff_bounds] at hc
    omega
  aligned area ha := ⟨(h.areas area ha).start_aligned, (h.areas area ha).end_aligned⟩
  nonempty area ha := (h.areas area ha).start_lt_end
  resident area ha n page hn := (h.areas area ha).index_lt n (by simp [hn])
  lookup addr i area hi hc := by
    have hb := MapArea.contains_iff_bounds.mp hc
    have hunique : ∀ j area', ms.areas[j]? = some area' → area'.contains addr → j = i :=
      fun j area' hj hc' => h.sorted.index_unique hj hi (MapArea.contains_iff_bounds.mp hc') hb
    refine ⟨?_, hunique⟩
    have ⟨j, hj⟩ := areaContaining_complete h (List.mem_of_getElem? hi) hb
    simp only [areaContaining, Option.bind_eq_bind, Option.bind_eq_some_iff, Option.pure_def,
      Option.some.injEq, Prod.mk.injEq] at hj
    obtain ⟨index, hindex, _, hget, rfl, rfl⟩ := hj
    rw [hindex, hunique index _ hget hc]

namespace Process

variable {process process' : Process}

theorem Run.wf (h : Run process process') (hw : process.memorySet.WF) : process'.memorySet.WF := by
  induction h
  case refl => exact hw
  case syscall call _ henv hi => exact (body_keeps call henv).run hi
  case child q child _ hc hi =>
    have hspec := Hoare.post_of_triple sysFork_spec hi
    split at hspec
    case h_1 child' q' he =>
      simp only [exec, he, Except.ok.injEq] at hc
      exact hc ▸ hspec.2
    case h_2 he =>
      simp only [exec, he, reduceCtorEq] at hc
  case others hi => exact hi

-- The areas of an address space stay in order, whatever its process does.
theorem run_ordered (process process' : Process) (hw : process.memorySet.WF) (h : Run process process') :
    process'.memorySet.Ordered :=
  (h.wf hw).ordered

def bare : Process where
  memorySet := .newBare
  mm := ⟨userHeapStart, userHeapStart, 0x20000000, defaultHighMmapBase⟩
  segments := []
  frames := ⟨fun _ => .zero, []⟩

def bareKernel : Kernel where
  arch := .riscv64
  env := World.noFiles
  tgid := 1
  currentTimeSec := 0
  fdTable := fun _ => none
  readAt := fun _ _ _ => .error .EBADF
  writeAt := fun _ _ _ => .error .EBADF
  sync := fun _ => .error .EBADF

-- A process grows its heap by two pages and protects the first one of them.
def grown : Process :=
  ((bare.exec (Syscall.brk 0x10002000 |>.body bareKernel)).2.exec
    (Syscall.mprotect 0x10000000 0x1000 Prot.read |>.body bareKernel)).2

theorem grown_ordered : grown.memorySet.areas.length = 2 ∧ grown.memorySet.Ordered := by
  have hlawful : bareKernel.env.Lawful (fun _ => True) :=
    ⟨fun _ => Nat.one_pos, by simp [bareKernel, World.noFiles]⟩
  refine ⟨by decide_cbv, run_ordered bare grown MemorySet.Coherent.newBare.toWF ?_⟩
  exact .syscall _ (.syscall _ (.refl bare) hlawful) hlawful

end Process

end WllOs
