import WllOs.Mm.SharedRights
import WllOs.Mm.Theorems.Policy

set_option mvcgen.warning false

open Std.Do

namespace WllOs

variable {ms ms' : MemorySet} {origins : Origins} {start stop startVa endVa vpn : Nat}
variable {permission : PTEFlags} {kernel : Kernel}

def PageBacking.isSharedFile : PageBacking → Bool
  | file _ _ true => true
  | _             => false

theorem MapAreaBacking.isSharedFile_page {backing : MapAreaBacking} {delta : Nat} :
    (backing.page delta).isSharedFile ↔ ∃ file offset, backing = .file file offset true := by
  cases backing
  case file file offset shared => cases shared <;> simp [page, PageBacking.isSharedFile]
  all_goals simp [page, PageBacking.isSharedFile]

-- The descriptor of a page is open for writing.
def Origins.Writable (origins : Origins) (vpn : Nat) : Prop :=
  ∃ descriptor, origins vpn = some descriptor ∧ descriptor.isWritable

namespace MemorySet

structure Granted (origins : Origins) (ms : MemorySet) : Prop where
  wf       : ms.WF
  writable : ∀ vpn backing, backing.isSharedFile → PolicyAt ms.areas vpn true backing →
               origins.Writable vpn

theorem Granted.sharedWritesGranted (h : ms.Granted origins) : ms.SharedWritesGranted origins := by
  intro area ha file offset hb hw vpn hs he
  refine h.writable vpn (area.backing.page (vpn * pageSize - area.startVa))
    (MapAreaBacking.isSharedFile_page.mpr ⟨_, _, hb⟩) ?_
  exact ⟨_, ⟨area, ha, MapArea.view_eq_some.mpr ⟨hs, he, rfl⟩⟩, hw, rfl⟩

-- Pages lose rights, or what they get is granted.
theorem Granted.mono (h : ms.Granted origins) (hw : ms'.WF)
    (hp : ∀ vpn backing, backing.isSharedFile → PolicyAt ms'.areas vpn true backing →
      PolicyAt ms.areas vpn true backing ∨ origins.Writable vpn) : ms'.Granted origins where
  wf := hw
  writable vpn backing hb hv := (hp vpn backing hb hv).elim (h.writable vpn backing hb) id

theorem Granted.same (h : ms.Granted origins) (hw : ms'.WF)
    (hp : ∀ {vpn w backing}, PolicyAt ms'.areas vpn w backing ↔ PolicyAt ms.areas vpn w backing) :
    ms'.Granted origins :=
  h.mono hw fun _ _ _ hv => .inl (hp.mp hv)

theorem Granted.unmapRange (h : ms.Granted origins) (hu : ms.unmapRange start stop = .ok ms') :
    ms'.Granted origins :=
  h.mono (unmapRange_wf h.wf hu) fun _ _ _ hv => .inl ((unmapRange_policyAt h.wf hu).mp hv).2

-- What a new mapping is granted.
def Grants (origins : Origins) (permission : PTEFlags) (backing : MapAreaBacking) (startVa endVa : Nat) :
    Prop :=
  ∀ vpn page, page.isSharedFile → NewAt permission backing startVa endVa vpn true page → origins.Writable vpn

theorem Granted.insertLazy {backing : MapAreaBacking} (h : ms.Granted origins)
    (hfree : ms.RangeFree startVa endVa) (hu : permission.u)
    (hg : Grants origins permission backing startVa endVa)
    (hi : ms.insertLazyAreaWithBacking startVa endVa permission backing = .ok ms') : ms'.Granted origins :=
  h.mono (insertLazyAreaWithBacking_wf h.wf hfree hu hi) fun vpn page hb hv =>
    ((insertLazyAreaWithBacking_policyAt h.wf hi).mp hv).imp_right (hg vpn page hb)

theorem Granted.insertFramed {backing : MapAreaBacking} (frames : Frames) (h : ms.Granted origins)
    (hfree : ms.RangeFree startVa endVa) (hu : permission.u) (hc : ¬permission.cow)
    (hg : Grants origins permission backing startVa endVa) :
    (ms.insertFramedAreaWithBacking frames startVa endVa permission backing).1.Granted origins := by
  refine h.mono (insertFramedAreaWithBacking_wf frames backing h.wf hfree hu hc) fun vpn page hb hv => ?_
  cases insertFramedAreaWithBacking_policyAt frames h.wf hc
  case inl hp => exact .inl ((hp vpn true page).mp hv)
  case inr hp => exact ((hp vpn true page).mp hv).imp_right (hg vpn page hb)

theorem grants_of_not_sharedFile {backing : MapAreaBacking}
    (h : ∀ file offset, backing ≠ .file file offset true) : Grants origins permission backing startVa endVa := by
  intro vpn page hb hn
  have ⟨_, _, _, _, _, _, hpage⟩ := hn
  subst hpage
  have ⟨file, offset, hf⟩ := MapAreaBacking.isSharedFile_page.mp hb
  exact absurd hf (h file offset)

-- A range without areas may get any origins.
theorem Granted.map (file : Option FileDescriptor) (h : ms.Granted origins) (hf : ms.RangeFree startVa endVa) :
    ms.Granted (origins.map file startVa endVa) where
  wf := h.wf
  writable vpn backing hb hv := by
    have hold := h.writable vpn backing hb hv
    simp only [Origins.map]
    split
    case h_1 => exact hold
    case h_2 start stop hr =>
      simp only [Origins.Writable] at hold ⊢
      rw [if_neg]
      case hnc =>
        rintro ⟨hs, he⟩
        have ⟨_, ⟨area, ha, hview⟩, _⟩ := hv
        have := MapArea.contains_of_view hview
        exact hf start stop hr area ha (overlaps_iff.mpr (by omega))
      case _ => exact hold

end MemorySet

section Keeps

open Hoare SyscallM

variable {α : Type}

abbrev KeepsGranted (origins : Origins) (call : SyscallM α) : Prop :=
  Keeps (·.memorySet.Granted origins) call

theorem sysMadvise_granted (addr len : Nat) (advice : BitVec 32) :
    KeepsGranted origins (sysMadvise addr len advice) := by
  mvcgen [sysMadvise, failIf, ofResult, tryMemorySet]
  rename_i process hg _ _ range _ _ he
  cases hd : process.memorySet.discardAnonymousRange range.1 range.2
  case error => simp [hd] at he
  case ok discarded =>
    simp only [hd, Except.map_ok, Except.ok.injEq] at he
    subst he
    exact hg.same (MemorySet.discardAnonymousRange_wf hg.wf hd) (MemorySet.discardAnonymousRange_policyAt hd)

theorem sysMunmap_granted (addr length : Nat) : KeepsGranted origins (sysMunmap kernel addr length) := by
  mvcgen [sysMunmap, flushRange, failIf, ofResult, tryMemorySet]
  rename_i hg _ _ _ _ _ _ _ he
  exact hg.unmapRange he

theorem growHeap_granted {mappedBreak newMappedEnd : Nat} (hg : ms.Granted origins)
    (h : sysBrk.growHeap ms mappedBreak newMappedEnd = .ok ms') : ms'.Granted origins := by
  simp only [sysBrk.growHeap] at h
  split at h
  case isTrue hlt =>
    split at h
    case isTrue => cases h
    case isFalse hno =>
      have hfree := (MemorySet.rangeOverlaps_eq_false hg.wf hlt).mp (Bool.eq_false_iff.mpr hno)
      exact hg.insertLazy (MemorySet.rangeFree_of_not_overlaps hg.wf hfree) rfl
        (MemorySet.grants_of_not_sharedFile (by simp)) h
  case isFalse =>
    split at h
    case isTrue => exact hg.unmapRange h
    case isFalse =>
      cases h
      exact hg

theorem sysBrk_granted (newBrk : Nat) : KeepsGranted origins (sysBrk kernel newBrk) := by
  mvcgen [sysBrk]
  rename_i hg _ _ _ _ _ _ _ he _
  exact growHeap_granted hg he

theorem unmapRanges_granted (ranges : List (Nat × Nat)) : KeepsGranted origins (unmapRanges ranges) := by
  induction ranges
  case nil => mvcgen [unmapRanges]
  case cons range ranges hi =>
    mvcgen [unmapRanges, tryMemorySet, hi]
    rename_i hg _ he
    exact hg.unmapRange he

theorem shmatStart_granted (shmaddr : Nat) (shmflg : BitVec 32) (mapLen : Nat) :
    KeepsGranted origins (shmatStart kernel shmaddr shmflg mapLen) := by
  mvcgen [shmatStart, failIf, okOr]

theorem shmPlace_granted (remap : Bool) (shmaddr : Nat) :
    KeepsGranted origins (shmPlace kernel remap shmaddr start stop) := by
  mvcgen [shmPlace, flushRange, failIf, ofResult, tryMemorySet]
  rename_i hg _ _ _ _ he
  exact hg.unmapRange he

theorem shmAttach_granted (shmid shmaddr : Nat) (shmflg : BitVec 32) (frames : List Ppn) :
    KeepsGranted origins (shmAttach kernel shmid shmaddr shmflg frames) := by
  mvcgen [shmAttach, shmatStart_granted, shmPlace_granted, failIf, okOr, tryMemorySet]
  rename_i hg _ he _
  refine hg.mono (MemorySet.insertSharedFramedArea_wf hg.wf rfl Bool.false_ne_true he) fun vpn page hb hv => ?_
  refine ((MemorySet.insertSharedFramedArea_policyAt hg.wf he).mp hv).imp_right ?_
  exact MemorySet.grants_of_not_sharedFile (by simp) vpn page hb

theorem sysShmat_granted (shmid shmaddr : Nat) (shmflg : BitVec 32) :
    KeepsGranted origins (sysShmat kernel shmid shmaddr shmflg) := by
  mvcgen [sysShmat, failIf, okOr, shmAttach_granted]

theorem sysShmdt_granted (shmaddr : Nat) : KeepsGranted origins (sysShmdt kernel shmaddr) := by
  mvcgen [sysShmdt, failIf, okOr, unmapRanges_granted]

theorem pageFault_granted {cached : Ppn → Prop} (addr : Nat) (access : Access) (henv : kernel.env.Lawful cached) :
    KeepsGranted origins (pageFault kernel addr access) := by
  mvcgen [pageFault, ofResult]
  rename_i hg _ he
  exact hg.same (MemorySet.handlePageFault_wf hg.wf henv he) (MemorySet.handlePageFault_policyAt hg.wf henv he)

theorem sysFork_granted (origins : Origins) :
    ⦃fun process => ⌜process.memorySet.Granted origins⌝⦄ sysFork
    ⦃post⟨fun child process => ⌜process.memorySet.Granted origins ∧ child.memorySet.Granted origins⌝,
      fun _ process => ⌜process.memorySet.Granted origins⌝⟩⦄ := by
  mvcgen [sysFork, ofResult]
  case vc1 =>
    rename_i hg _ hc
    refine ⟨hg.same (MemorySet.forkCow_wf _ hg.wf) (MemorySet.forkCow_policyAt _ hg.wf), ?_⟩
    exact hg.same ((MemorySet.forkCow_spec _ hg.wf.areas).child_wf hg.wf hc).1
      (MemorySet.forkCow_child_policyAt hg.wf hc)
  case vc2 =>
    rename_i hg _ _
    exact hg.same (MemorySet.forkCow_wf _ hg.wf) (MemorySet.forkCow_policyAt _ hg.wf)

theorem sysMprotect_granted (kernel : Kernel) (addr len : Nat) (prot : BitVec 32) :
    ⦃fun process => ⌜process.memorySet.Granted origins ∧
      (Syscall.mprotect addr len prot).RespectsRights process origins⌝⦄
    sysMprotect kernel addr len prot
    ⦃post⟨fun _ process => ⌜process.memorySet.Granted origins⌝,
      fun _ process => ⌜process.memorySet.Granted origins⌝⟩⦄ := by
  mvcgen [sysMprotect, failIf, ofResult, tryMemorySet]
  case vc2 =>
    rename_i process hp haddr flags hflags range hrange ms' he
    obtain ⟨hg, hr⟩ := hp
    have hu := (protToPteFlags_user hflags).1
    refine hg.mono (MemorySet.protectRange_wf hg.wf hu he) fun vpn backing hb hv => ?_
    rw [MemorySet.protectRange_policyAt hg.wf hu he] at hv
    split at hv
    case isFalse => exact .inl hv
    case isTrue hin =>
      obtain ⟨hw, w, view, ⟨area, ha, hview⟩, _, hbacking⟩ := hv
      obtain ⟨hs, hs', heq⟩ := MapArea.view_eq_some.mp hview
      subst hbacking heq
      obtain ⟨file, offset, hfile⟩ := MapAreaBacking.isSharedFile_page.mp hb
      simp only [Bool.or_eq_true, decide_eq_true_eq, not_or, ne_eq, not_not] at haddr
      exact .inr (hr flags range.1 range.2 haddr.1 hflags hrange (MemorySet.protectRange_covered he) hw area ha
        file offset hfile vpn hs hs' hin.1 hin.2)
  all_goals exact (‹MemorySet.Granted _ _ ∧ _›).1

theorem flush_granted (request : MmapRequest) : KeepsGranted origins (request.flush kernel start stop) := by
  mvcgen [MmapRequest.flush, flushRange, ofResult]

theorem Cleared.granted {request : MmapRequest} {before after : Process}
    (h : Cleared request start stop before after) (hg : before.memorySet.Granted origins) :
    after.memorySet.Granted origins := by
  cases h
  case inl he => exact he ▸ hg
  case inr h =>
    have ⟨_, ms, hu, he⟩ := h
    subst he
    exact hg.unmapRange hu

theorem place_granted (request : MmapRequest) (arch : Arch) (hlt : start < stop) :
    ⦃fun process => ⌜process.memorySet.Granted origins⌝⦄ request.place arch start stop
    ⦃post⟨fun range process => ⌜process.memorySet.Granted origins ∧
        process.memorySet.RangeFree range.1 range.2⌝,
      fun _ process => ⌜process.memorySet.Granted origins⌝⟩⦄ := by
  mvcgen [place_cases]
  case vc1 =>
    rename_i hg _ _
    exact fun hc hfree => ⟨hc.granted hg, hfree⟩
  case vc2 =>
    rename_i hg _ _
    exact fun he => he ▸ hg
  case vc3 => exact fun _ _ => hlt
  case vc4 => exact fun _ hg => hg.wf

-- The flags of a mapping allow writes only if they were asked for.
theorem ofArgs_write {addr length : Nat} {prot flagsArg : BitVec 32} {request : MmapRequest}
    (h : MmapRequest.ofArgs addr length prot flagsArg = .ok request) :
    request.pteFlags.w = (request.prot &&& Prot.write ≠ 0) := by
  simp only [MmapRequest.ofArgs, bind, Except.bind] at h
  cases hv : validateMmapFlags (flagsArg.signExtend 64) <;> simp only [hv, reduceCtorEq] at h
  cases ht : mmapType (flagsArg.signExtend 64) <;> simp only [ht, reduceCtorEq] at h
  cases hp : protToPteFlags prot <;> simp only [hp, reduceCtorEq] at h
  cases hl : alignUpResult length <;> simp only [hl, reduceCtorEq] at h
  cases h
  simp only [protToPteFlags] at hp
  split at hp
  case isTrue => cases hp
  case isFalse =>
    cases hp
    simp

-- A shared file mapping with the right to write has a descriptor with this right.
theorem backing_writable {request : MmapRequest} {fd : Int} {offset : Nat} {file : FileDescriptor}
    {fileOffset : Nat} {rest : Option (List UInt8) × Bool}
    (h : request.backing kernel fd offset = .ok (.file file fileOffset true, rest))
    (hw : request.prot &&& Prot.write ≠ 0) :
    request.anonymous = false ∧ kernel.fdTable fd.toNat = some file ∧ file.isWritable := by
  simp only [MmapRequest.backing] at h
  split at h
  case isTrue =>
    simp only [Except.ok.injEq, Prod.mk.injEq] at h
    have := h.1
    split at this <;> cases this
  case isFalse ha =>
    split at h
    case h_1 => cases h
    case h_2 descriptor hd =>
      split at h
      case isTrue => cases h
      case isFalse =>
        split at h
        case isTrue => cases h
        case isFalse hright =>
          have hfile : descriptor = file ∧ request.shared = true := by
            split at h
            all_goals
              split at h
              case isTrue =>
                split at h
                case h_1 => cases h
                case h_2 =>
                  simp only [Except.ok.injEq, Prod.mk.injEq, MapAreaBacking.file.injEq] at h
                  exact ⟨h.1.1, h.1.2.2⟩
              case isFalse =>
                simp only [Except.ok.injEq, Prod.mk.injEq, MapAreaBacking.file.injEq] at h
                exact ⟨h.1.1, h.1.2.2⟩
          obtain ⟨rfl, hs⟩ := hfile
          have hright : request.prot &&& Prot.write ≠ 0 → descriptor.isWritable := by simpa [hs] using hright
          exact ⟨by simpa using ha, hd, hright hw⟩

-- A mapping that has been placed, and what it is granted.
structure Placed (kernel : Kernel) (fd : Int) (request : MmapRequest) (range : Nat × Nat)
    (backing : MapAreaBacking) (ms : MemorySet) : Prop where
  free  : ms.RangeFree range.1 range.2
  user  : request.pteFlags.u ∧ ¬request.pteFlags.cow
  write : ∀ file offset, backing = .file file offset true → request.pteFlags.w →
            request.anonymous = false ∧ kernel.fdTable fd.toNat = some file ∧ file.isWritable

theorem Placed.grants {fd : Int} {request : MmapRequest} {range : Nat × Nat} {backing : MapAreaBacking}
    (h : Placed kernel fd request range backing ms) :
    MemorySet.Grants (origins.map (if request.anonymous then none else kernel.fdTable fd.toNat) range.1 range.2)
      request.pteFlags backing range.1 range.2 := by
  intro vpn page hb hn
  have ⟨start, stop, hr, hs, he, hw, hpage⟩ := hn
  subst hpage
  have ⟨file, offset, hfile⟩ := MapAreaBacking.isSharedFile_page.mp hb
  have ⟨ha, hd, hwritable⟩ := h.write file offset hfile hw
  exact ⟨file, by simp [Origins.map, hr, hs, he, ha, hd], hwritable⟩

theorem mmapPlaced_granted (origins : Origins) (kernel : Kernel) (addr length : Nat) (prot flagsArg : BitVec 32) (fd : Int) (offset : Nat) :
    ⦃fun process => ⌜process.memorySet.Granted origins⌝⦄
    mmapPlaced kernel addr length prot flagsArg fd offset
    ⦃post⟨fun placed process => ⌜process.memorySet.Granted origins ∧
        Placed kernel fd placed.1 placed.2.1 placed.2.2.1 process.memorySet⌝,
      fun _ process => ⌜process.memorySet.Granted origins⌝⟩⦄ := by
  mvcgen [mmapPlaced, mmapSelected, failIf, okOr, ofResult, flush_granted, place_granted]
  case vc8 =>
    rename_i hmappable _ _ _ _ _
    exact lt_of_mappable (by simpa using hmappable)
  case vc10 =>
    rename_i hrequest _ _ _ _ _ _ _ _ _ result hbacking _ _ _ _ _ hplaced
    refine ⟨hplaced.1, hplaced.2, ofArgs_user hrequest, fun file fileOffset hfile hw => ?_⟩
    have hresult : result = (.file file fileOffset true, result.2) := by rw [← hfile]
    rw [hresult] at hbacking
    exact backing_writable hbacking (by simpa [ofArgs_write hrequest] using hw)

theorem insert_granted (kernel : Kernel) (fd : Int) {request : MmapRequest} {range : Nat × Nat} {backing : MapAreaBacking}
    (fileData : Option (List UInt8)) (lazyCleanMmap : Bool)
    (hgrants : MemorySet.Grants origins request.pteFlags backing range.1 range.2) :
    ⦃fun process => ⌜process.memorySet.Granted origins ∧
      Placed kernel fd request range backing process.memorySet⌝⦄
    request.insert range.1 range.2 backing fileData lazyCleanMmap
    ⦃post⟨fun _ process => ⌜process.memorySet.Granted origins⌝,
      fun _ process => ⌜process.memorySet.Granted origins⌝⟩⦄ := by
  have hframed : ∀ {process : Process}, process.memorySet.Granted origins →
      Placed kernel fd request range backing process.memorySet →
      (process.memorySet.insertFramedAreaWithBacking process.frames range.1 range.2 request.pteFlags
        backing).1.Granted origins := fun hg hp =>
    hg.insertFramed _ hp.free hp.user.1 hp.user.2 hgrants
  have hwrite : ∀ {process : Process} {data : List UInt8} {frames : Frames}, process.memorySet.Granted origins →
      Placed kernel fd request range backing process.memorySet →
      (MemorySet.writeBytes (process.memorySet.insertFramedAreaWithBacking process.frames range.1 range.2
        request.pteFlags backing).1 frames range.1 data).1.Granted origins := fun hg hp =>
    (hframed hg hp).same (MemorySet.writeBytesFrom_wf _ _ _ _ _ (hframed hg hp).wf)
      (MemorySet.writeBytesFrom_policyAt ..)
  mvcgen [MmapRequest.insert, onMemorySet, ofResult, tryMemorySet]
  case vc1 =>
    rename_i hp _ he
    exact hp.1.insertLazy hp.2.free hp.2.user.1 hgrants he
  case vc2 =>
    rename_i hp _ _
    exact hp.1
  case vc3 | vc4 =>
    rename_i hp _ _ _ _ _ _
    exact hwrite hp.1 hp.2
  case vc5 =>
    rename_i hp _ _ _
    exact hframed hp.1 hp.2
  case vc6 =>
    rename_i hp _ _
    exact hframed hp.1 hp.2

-- `sys_mmap` as the placement of a mapping and its insertion.
theorem sysMmap_eq (addr length : Nat) (prot flagsArg : BitVec 32) (fd : Int) (offset : Nat) :
    sysMmap kernel addr length prot flagsArg fd offset =
    mmapPlaced kernel addr length prot flagsArg fd offset >>=
      fun (request, range, backing, fileData, lazyCleanMmap) => do
        request.insert range.1 range.2 backing fileData lazyCleanMmap
        modify fun process => { process with mm := process.mm.advance range.1 range.2 }
        return range.1 := by
  simp only [sysMmap, mmapPlaced, mmapSelected, bind_assoc, pure_bind]

theorem exec_bind {β : Type} (process : Process) (x : SyscallM α) (f : α → SyscallM β) :
    process.exec (x >>= f) = match process.exec x with
      | (.ok a, process)        => process.exec (f a)
      | (.error error, process) => (.error error, process) := by
  simp only [Process.exec, bind, ExceptT.bind, ExceptT.mk, StateT.bind, ExceptT.run, StateT.run, Id.run]
  cases hx : x process with
  | mk result process' => cases result <;> rfl

theorem mmapInsert_granted {fd : Int} {request : MmapRequest} {range : Nat × Nat} {backing : MapAreaBacking}
    (fileData : Option (List UInt8)) (lazyCleanMmap : Bool)
    (hgrants : MemorySet.Grants origins request.pteFlags backing range.1 range.2) :
    ⦃fun process => ⌜process.memorySet.Granted origins ∧
      Placed kernel fd request range backing process.memorySet⌝⦄
    (do
      request.insert range.1 range.2 backing fileData lazyCleanMmap
      modify fun process => { process with mm := process.mm.advance range.1 range.2 }
      return range.1 : SyscallM Nat)
    ⦃post⟨fun _ process => ⌜process.memorySet.Granted origins⌝,
      fun _ process => ⌜process.memorySet.Granted origins⌝⟩⦄ := by
  have hinsert := insert_granted kernel fd fileData lazyCleanMmap hgrants
  mvcgen [hinsert]

theorem sysMmap_granted {process : Process} (addr length : Nat) (prot flags : BitVec 32) (fd : Int) (offset : Nat)
    (h : process.memorySet.Granted origins) :
    (process.exec (sysMmap kernel addr length prot flags fd offset)).2.memorySet.Granted
      ((Syscall.mmap addr length prot flags fd offset).origins kernel process origins) := by
  have hspec := mmapPlaced_granted origins kernel addr length prot flags fd offset
  rw [sysMmap_eq, exec_bind, Syscall.origins]
  cases he : process.exec (mmapPlaced kernel addr length prot flags fd offset) with
  | mk result process' =>
    cases result
    case error =>
      have hg := error_of_triple hspec h he
      exact hg
    case ok placed =>
      obtain ⟨request, range, backing, fileData, lazyCleanMmap⟩ := placed
      have ⟨hg, hp⟩ := ok_of_triple hspec h he
      have hmapped := hg.map (if request.anonymous then none else kernel.fdTable fd.toNat) hp.free
      exact run_of_triple (mmapInsert_granted fileData lazyCleanMmap hp.grants) ⟨hmapped, hp⟩

-- The result of a system call does not matter to the process.
theorem exec_discard (process : Process) (x : SyscallM α) :
    (process.exec (do let _ ← x)).2 = (process.exec x).2 := by
  simp only [exec_bind]
  split
  case h_1 he => rw [he]; rfl
  case h_2 he => rw [he]

theorem body_granted {cached : Ppn → Prop} {process : Process} (call : Syscall)
    (henv : kernel.env.Lawful cached) (hr : call.RespectsRights process origins)
    (h : process.memorySet.Granted origins) :
    (process.exec (call.body kernel)).2.memorySet.Granted (call.origins kernel process origins) := by
  cases call
  case pageFault addr access => exact (pageFault_granted addr access henv).run h
  all_goals
    simp only [Syscall.body, exec_discard]
  case mmap => exact sysMmap_granted _ _ _ _ _ _ h
  case munmap => exact (sysMunmap_granted _ _).run h
  case mprotect => exact run_of_triple (sysMprotect_granted kernel _ _ _) ⟨h, hr⟩
  case madvise => exact (sysMadvise_granted _ _ _).run h
  case brk => exact (sysBrk_granted _).run h
  case shmat => exact (sysShmat_granted _ _ _).run h
  case shmdt => exact (sysShmdt_granted _).run h
  case fork =>
    have hspec := sysFork_granted origins
    cases he : process.exec sysFork with
    | mk result process' =>
      cases result
      case ok => exact (ok_of_triple hspec h he).1
      case error =>
        have hg := error_of_triple hspec h he
        exact hg

end Keeps

namespace Process

variable {process process' : Process}

theorem Traced.granted (hw : process.memorySet.WF)
    (hn : ∀ area ∈ process.memorySet.areas, ∀ file offset, area.backing ≠ .file file offset true)
    (h : Traced (fun process origins call => call.RespectsRights process origins) process process' origins) :
    process'.memorySet.Granted origins := by
  induction h
  case refl =>
    refine ⟨hw, fun vpn backing hb hv => ?_⟩
    have ⟨_, ⟨area, ha, hview⟩, _, hbacking⟩ := hv
    have ⟨_, _, heq⟩ := MapArea.view_eq_some.mp hview
    subst hbacking heq
    have ⟨file, offset, hfile⟩ := MapAreaBacking.isSharedFile_page.mp hb
    exact absurd hfile (hn area ha file offset)
  case syscall call _ henv hr hi => exact body_granted call henv hr hi
  case child q child origins _ hc hi =>
    have hr : q.exec sysFork = (.ok child, (q.exec sysFork).2) := by rw [← hc]
    exact (Hoare.ok_of_triple (sysFork_granted origins) hi hr).2
  case others hi => exact hi

-- A process begins without shared file mappings, and protects none of them beyond the rights of its descriptor.
theorem shared_writes_granted (process process' : Process) (origins : Origins) (hw : process.memorySet.WF)
    (hn : ∀ area ∈ process.memorySet.areas, ∀ file offset, area.backing ≠ .file file offset true)
    (h : Traced (fun process origins call => call.RespectsRights process origins) process process' origins) :
    process'.memorySet.SharedWritesGranted origins :=
  (h.granted hw hn).sharedWritesGranted

-- A kernel whose descriptor 3 is a file that is open for reading, and possibly for writing.
def oneFile (writable : Bool) : Kernel :=
  { bareKernel with
    fdTable := fun fd => if fd = 3 then some (.memFile 1 true writable) else none
    readAt  := fun _ _ _ => .ok [7] }

def mapShared : Syscall :=
  .mmap 0 0x1000 Prot.read 0x01 3 0

def protectShared : Syscall :=
  .mprotect 0x20000000 0x1000 (Prot.read ||| Prot.write)

def oneFrame : Process :=
  { bare with frames := ⟨fun _ => .zero, [7]⟩ }

-- Maps a page of the file for reading, and then asks for the right to write it.
def protectedShared (writable : Bool) : Process :=
  ((oneFrame.exec (mapShared.body (oneFile writable))).2.exec (protectShared.body (oneFile writable))).2

def sharedOrigins (writable : Bool) : Origins :=
  mapShared.origins (oneFile writable) oneFrame fun _ => none

theorem oneFile_lawful (writable : Bool) : (oneFile writable).env.Lawful (fun _ => True) :=
  ⟨fun _ => Nat.one_pos, by simp [oneFile, bareKernel, World.noFiles]⟩

-- The area of the mapping.
def sharedArea (w writable : Bool) : MapArea where
  startVa  := 0x20000000
  endVa    := 0x20001000
  flags    := { PTEFlags.empty with v := true, r := true, u := true, w }
  resident := ⟨[(0, [⟨7, .fileDirty⟩])], 1⟩
  backing  := .file (.memFile 1 true writable) 0 true

theorem protectedShared_granted :
    (protectedShared true).memorySet.areas = [sharedArea true true] ∧
    (protectedShared true).memorySet.SharedWritesGranted (sharedOrigins true) := by
  have hmapped : (oneFrame.exec (mapShared.body (oneFile true))).2.memorySet.areas = [sharedArea false true] := by
    decide_cbv
  have horigin : sharedOrigins true 0x20000 = some (.memFile 1 true true) := by decide_cbv
  have hn : ∀ area ∈ oneFrame.memorySet.areas, ∀ file offset, area.backing ≠ .file file offset true := by
    simp [oneFrame, bare, MemorySet.newBare]
  refine ⟨by decide_cbv, shared_writes_granted oneFrame _ _ MemorySet.Coherent.newBare.toWF hn ?_⟩
  refine .syscall protectShared (.syscall mapShared .refl (oneFile_lawful true) trivial) (oneFile_lawful true) ?_
  intro flags start stop _ _ _ _ _ area ha file offset _ vpn hs he _ _
  rw [hmapped, List.mem_singleton] at ha
  simp only [ha, sharedArea, pageSize] at hs he
  obtain rfl : vpn = 0x20000 := by omega
  exact ⟨_, horigin, rfl⟩

-- The descriptor is not open for writing, but `mprotect` does not look at it.
theorem mprotect_exceeds_rights : ∃ process origins,
    Traced (fun _ _ _ => True) oneFrame process origins ∧ ¬process.memorySet.SharedWritesGranted origins := by
  refine ⟨protectedShared false, sharedOrigins false, ?_, fun h => ?_⟩
  case refine_1 =>
    exact .syscall protectShared (.syscall mapShared .refl (oneFile_lawful false) trivial)
      (oneFile_lawful false) trivial
  case refine_2 =>
    have hareas : (protectedShared false).memorySet.areas = [sharedArea true false] := by decide_cbv
    have horigin : sharedOrigins false 0x20000 = some (.memFile 1 true false) := by decide_cbv
    obtain ⟨descriptor, hd, hw⟩ := h (sharedArea true false) (by simp [hareas]) _ _ rfl rfl 0x20000
      (by decide) (by decide)
    rw [horigin] at hd
    cases hd
    cases hw

end Process

end WllOs
