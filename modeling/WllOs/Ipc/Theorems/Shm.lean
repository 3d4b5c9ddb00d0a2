import WllOs.Ipc.Theorems.Attachments

namespace WllOs

open Segments Hoare

variable {ms ms' : MemorySet} {segments : Segments} {len count : Nat → Nat} {next shmid : Nat}

-- A range spares the attachments of an address space if each of them keeps a page.
def Spared (ms : MemorySet) (range : Option (Nat × Nat)) : Prop :=
  ∀ bounds, range = some bounds → ∀ attachment ∈ taskSharedMemoryAttachments ms,
    ∃ vpn, ShmPage ms.areas vpn attachment ∧ ¬(bounds.1 ≤ vpn * pageSize ∧ vpn * pageSize < bounds.2)

theorem KeptPages.attachments {range : Option (Nat × Nat)} (h : KeptPages ms range ms') (hw : ms.WF)
    (hs : Spared ms range) (attachment : Nat × Nat) :
    attachment ∈ taskSharedMemoryAttachments ms' ↔ attachment ∈ taskSharedMemoryAttachments ms := by
  rw [mem_attachments h.wf.areas, mem_attachments hw.areas]
  constructor
  case mp => exact fun ⟨vpn, hp⟩ => ⟨vpn, h.old vpn attachment hp⟩
  case mpr =>
    rintro ⟨vpn, hp⟩
    cases range
    case none => exact ⟨vpn, (h.kept vpn attachment hp).resolve_right fun ⟨_, hn, _⟩ => by cases hn⟩
    case some bounds =>
      have ⟨vpn, hp, hout⟩ := hs bounds rfl attachment ((mem_attachments hw.areas).mpr ⟨vpn, hp⟩)
      refine ⟨vpn, (h.kept vpn attachment hp).resolve_right ?_⟩
      rintro ⟨_, hb, hin⟩
      cases hb
      exact hout hin

namespace ShmSystem

open Function (update update_self update_of_ne)

variable {system system' : ShmSystem} {space index : Nat}

-- The pages of an attachment lie where the segment was attached.
def Placed (len : Nat → Nat) (ms : MemorySet) : Prop :=
  ∀ vpn attachment, ShmPage ms.areas vpn attachment →
    alignDown attachment.2 ≤ vpn * pageSize ∧ vpn * pageSize < attachment.2 + len attachment.1 * pageSize

structure Inv (len : Nat → Nat) (system : ShmSystem) : Prop where
  wf      : ∀ space ∈ system.live, (system.spaces space).memorySet.WF
  placed  : ∀ space ∈ system.live, Placed len (system.spaces space).memorySet
  fresh   : ∀ space ∈ system.live, space < system.nextSpace
  counts  : Counts system.nextShmid len system.attachments system.segments
  marked  : Marked [] system.segments

theorem Inv.accounted (h : Inv len system) : system.Accounted where
  attachCount := h.counts.attachCount
  marked id segment hm hmark := (h.marked id segment hm hmark).resolve_right List.not_mem_nil
  exists_of := h.counts.exists_of

theorem attached_le (h : space ∈ system.live) (shmid : Nat) :
    attachedTo (system.spaces space).memorySet shmid ≤ system.attachments shmid :=
  Finset.single_le_sum (f := system.attached shmid) (fun _ _ => Nat.zero_le _) h

theorem attachments_pos (hs : space ∈ system.live) {attachment : Nat × Nat}
    (hm : attachment ∈ taskSharedMemoryAttachments (system.spaces space).memorySet) :
    0 < system.attachments attachment.1 := by
  have hle := attached_le hs attachment.1
  have : 0 < attachedTo (system.spaces space).memorySet attachment.1 :=
    List.countP_pos_iff.mpr ⟨attachment, hm, by simp⟩
  omega

-- The attachments of all other address spaces.
theorem attachments_erase (h : space ∈ system.live) (shmid : Nat) :
    attachedTo (system.spaces space).memorySet shmid +
      ∑ other ∈ system.live.erase space, system.attached shmid other = system.attachments shmid :=
  Finset.add_sum_erase _ (system.attached shmid) h

-- A single address space of those that are live changes.
theorem attachments_update (system' : ShmSystem) (hs : space ∈ system.live) (hl : system'.live = system.live)
    (ho : ∀ other, other ≠ space → (system'.spaces other).memorySet = (system.spaces other).memorySet)
    (shmid : Nat) :
    system'.attachments shmid + attachedTo (system.spaces space).memorySet shmid =
    system.attachments shmid + attachedTo (system'.spaces space).memorySet shmid := by
  have hrest : ∑ other ∈ system'.live.erase space, system'.attached shmid other =
      ∑ other ∈ system.live.erase space, system.attached shmid other := by
    rw [hl]
    refine Finset.sum_congr rfl fun other hm => ?_
    simp only [attached, ho other (Finset.ne_of_mem_erase hm)]
  have := attachments_erase hs shmid
  have := attachments_erase (hl ▸ hs : space ∈ system'.live) shmid
  omega

theorem mem_live (h : space ∈ system.group index) : space ∈ system.live := by
  simp only [group] at h
  cases hg : system.groups[index]?
  case none => simp [hg] at h
  case some members =>
    simp only [hg, Option.getD_some] at h
    simp only [live, List.mem_toFinset, List.mem_flatten]
    exact ⟨members, List.mem_of_getElem? hg, h⟩

-- A member changes its address space, and the segments along with it.
theorem Inv.setProcess (process : Process) (h : Inv len system) (hs : space ∈ system.live)
    (hw : process.memorySet.WF) (hp : Placed len process.memorySet)
    (hc : ∀ count', (∀ id, count' id + attachedTo (system.spaces space).memorySet id =
        system.attachments id + attachedTo process.memorySet id) →
      Counts system.nextShmid len count' process.segments ∧ Marked [] process.segments) :
    Inv len (system.setProcess space process) := by
  have hspaces (other : Nat) (hne : other ≠ space) :
      (system.setProcess space process).spaces other = system.spaces other := by
    simp [ShmSystem.setProcess, hne]
  have hself : ((system.setProcess space process).spaces space).memorySet = process.memorySet := by
    simp [ShmSystem.setProcess]
  have ⟨hcounts, hmarked⟩ := hc (system.setProcess space process).attachments fun id => by
    have := attachments_update (system.setProcess space process) hs rfl
      (fun other hne => by rw [hspaces other hne]) id
    rwa [hself] at this
  refine ⟨fun other ho => ?_, fun other ho => ?_, h.fresh, hcounts, hmarked⟩
  case refine_1 =>
    by_cases he : other = space
    case pos => rw [he, hself]; exact hw
    case neg => rw [hspaces other he]; exact h.wf other ho
  case refine_2 =>
    by_cases he : other = space
    case pos => rw [he, hself]; exact hp
    case neg => rw [hspaces other he]; exact h.placed other ho

theorem Placed.kept {range : Option (Nat × Nat)} (h : Placed len ms) (hk : KeptPages ms range ms') :
    Placed len ms' :=
  fun vpn attachment hp => h vpn attachment (hk.old vpn attachment hp)

-- A call that neither attaches nor detaches.
theorem Inv.kept {process : Process} (range : Option (Nat × Nat)) (h : Inv len system) (hs : space ∈ system.live)
    (hk : KeptPages (system.spaces space).memorySet range process.memorySet)
    (hc : Counts system.nextShmid len system.attachments process.segments ∧ Marked [] process.segments)
    (hspared : Spared (system.spaces space).memorySet range) : Inv len (system.setProcess space process) := by
  refine h.setProcess process hs hk.wf ((h.placed space hs).kept hk) fun count' hcount => ?_
  refine ⟨hc.1.congr fun id => ?_, hc.2⟩
  have := hcount id
  rw [attachedTo_congr (hk.attachments (h.wf space hs) hspared)] at this
  exact Nat.add_right_cancel this

-- The new attachment is not there yet, because it would have a page in the range that was free.
theorem Inv.attaches {process : Process} {range : Option (Nat × Nat)} {base : Nat} (h : Inv len system)
    (hs : space ∈ system.live) (ha : Attaches (system.process space) shmid (len shmid) range base process)
    (hc : Counts system.nextShmid len (update system.attachments shmid (system.attachments shmid + 1))
      process.segments ∧ Marked [] process.segments)
    (hspared : Spared (system.spaces space).memorySet range) : Inv len (system.setProcess space process) := by
  have ⟨ms, hk, hwf, hfree, ⟨first, hfirst⟩, hpages⟩ := ha.pages
  have hw := h.wf space hs
  have hplaced := (h.placed space hs).kept hk
  have hsame (attachment : Nat × Nat) : attachment ∈ taskSharedMemoryAttachments ms ↔
      attachment ∈ taskSharedMemoryAttachments (system.spaces space).memorySet :=
    hk.attachments hw hspared attachment
  have hnew : (shmid, base) ∉ taskSharedMemoryAttachments (system.spaces space).memorySet := by
    rw [← hsame, mem_attachments hk.wf.areas]
    exact fun ⟨vpn, hp⟩ => hfree vpn hp (hplaced vpn (shmid, base) hp)
  have hattachments (attachment : Nat × Nat) : attachment ∈ taskSharedMemoryAttachments process.memorySet ↔
      attachment = (shmid, base) ∨ attachment ∈ taskSharedMemoryAttachments (system.spaces space).memorySet := by
    rw [← hsame, mem_attachments hk.wf.areas, mem_attachments hwf.areas]
    constructor
    case mp =>
      rintro ⟨vpn, hp⟩
      cases (hpages vpn attachment).mp hp
      case inl hp => exact .inr ⟨vpn, hp⟩
      case inr hp => exact .inl hp.1
    case mpr =>
      rintro (rfl | ⟨vpn, hp⟩)
      · exact ⟨first, hfirst⟩
      · exact ⟨vpn, (hpages vpn attachment).mpr (.inl hp)⟩
  refine h.setProcess process hs hwf (fun vpn attachment hp => ?_) fun count' hcount => ?_
  case refine_1 =>
    cases (hpages vpn attachment).mp hp
    case inl hp => exact hplaced vpn attachment hp
    case inr hp =>
      have ⟨he, hin⟩ := hp
      subst he
      exact hin
  case refine_2 =>
    refine ⟨hc.1.congr fun id => ?_, hc.2⟩
    have := hcount id
    rw [attachedTo_insert hnew hattachments] at this
    by_cases he : id = shmid
    case pos =>
      subst he
      simp only [if_true, update_self] at this ⊢
      omega
    case neg =>
      simp only [if_neg (Ne.symm he), update_of_ne he] at this ⊢
      omega

theorem Inv.detaches {process : Process} {base : Nat} (h : Inv len system) (hs : space ∈ system.live)
    (hm : (shmid, base) ∈ taskSharedMemoryAttachments (system.spaces space).memorySet) (hwf : process.memorySet.WF)
    (hpages : ∀ vpn attachment, ShmPage process.memorySet.areas vpn attachment ↔
      ShmPage (system.spaces space).memorySet.areas vpn attachment ∧ attachment ≠ (shmid, base))
    (hc : Counts system.nextShmid len (update system.attachments shmid (system.attachments shmid - 1))
      process.segments ∧ Marked [] process.segments) : Inv len (system.setProcess space process) := by
  have hw := h.wf space hs
  have hgone : (shmid, base) ∉ taskSharedMemoryAttachments process.memorySet := by
    rw [mem_attachments hwf.areas]
    exact fun ⟨vpn, hp⟩ => ((hpages vpn _).mp hp).2 rfl
  have hattachments (attachment : Nat × Nat) :
      attachment ∈ taskSharedMemoryAttachments (system.spaces space).memorySet ↔
      attachment = (shmid, base) ∨ attachment ∈ taskSharedMemoryAttachments process.memorySet := by
    by_cases he : attachment = (shmid, base)
    case pos => simp [he, hm]
    case neg =>
      rw [mem_attachments hw.areas, mem_attachments hwf.areas]
      simp [he, hpages]
  refine h.setProcess process hs hwf (fun vpn attachment hp => ?_) fun count' hcount => ?_
  case refine_1 => exact h.placed space hs vpn attachment ((hpages vpn attachment).mp hp).1
  case refine_2 =>
    refine ⟨hc.1.congr fun id => ?_, hc.2⟩
    have := hcount id
    rw [attachedTo_insert hgone hattachments] at this
    by_cases he : id = shmid
    case pos =>
      subst he
      simp only [if_true, update_self] at this ⊢
      omega
    case neg =>
      simp only [if_neg (Ne.symm he), update_of_ne he] at this ⊢
      omega

-- A system call that unmaps no more than the condition permits.
theorem Inv.syscall {kernel : Kernel} {call : Syscall} (h : Inv len system) (hs : space ∈ system.live)
    (hv : (Event.syscall kernel call).Valid) (hcareful : system.Careful index space (.syscall kernel call)) :
    Inv len ((Event.syscall kernel call).apply system index space) := by
  have hw : (system.process space).memorySet.WF := h.wf space hs
  have hsegments : Counts system.nextShmid len system.attachments (system.process space).segments ∧
    Marked [] (system.process space).segments := ⟨h.counts, h.marked⟩
  have hspared : Spared (system.spaces space).memorySet (call.unmaps kernel (system.process space)) := by
    intro range hr attachment ha
    obtain ⟨area, hm, offset, hb, vpn, hstart, hend, hout⟩ := hcareful.1 range hr attachment ha
    exact ⟨vpn, shmPage_iff.mpr ⟨area, hm, ⟨offset, hb⟩, hstart, hend⟩, hout⟩
  have hkept {after : Process} (hk : Kept (system.process space) (call.unmaps kernel (system.process space)) after) :
      Inv len (system.setProcess space after) :=
    h.kept _ hs hk.pages (hk.segments ▸ hsegments) hspared
  cases call
  case pageFault => exact hkept (run_of_triple (pageFault_kept _ _ hw hv.1) rfl)
  case fork => exact absurd rfl hv.2
  all_goals
    simp only [Event.apply, Syscall.body, exec_discard]
  case mmap => exact hkept (sysMmap_kept _ _ _ _ _ _ hw)
  case munmap => exact hkept (run_of_triple (sysMunmap_kept _ _ hw) rfl)
  case mprotect => exact hkept (run_of_triple (sysMprotect_kept _ _ _ hw) rfl)
  case madvise => exact hkept (run_of_triple (sysMadvise_kept _ _ _ hw) rfl)
  case brk => exact hkept (run_of_triple (sysBrk_kept _ hw) rfl)
  case shmat shmid shmaddr shmflg =>
    have hmax := hcareful.2 shmid shmaddr shmflg rfl
    have hspec := sysShmat_spec kernel shmaddr shmflg hw hsegments.1 hsegments.2 hmax
    cases he : (system.process space).exec (sysShmat kernel shmid shmaddr shmflg) with
    | mk result after =>
      cases result
      case ok base =>
        obtain ⟨_, ha, hc⟩ := ok_of_triple hspec rfl he
        exact h.attaches hs ha hc hspared
      case error =>
        obtain ⟨hk, hc⟩ := error_of_triple hspec rfl he
        exact h.kept _ hs hk hc hspared
  case shmdt shmaddr =>
    have hpos (shmid : Nat) (hz : system.attachments shmid = 0) :
        (shmid, shmaddr) ∉ taskSharedMemoryAttachments (system.process space).memorySet :=
      fun hm => Nat.ne_of_gt (attachments_pos hs hm) hz
    have hspec := sysShmdt_spec kernel shmaddr hw hsegments.1 hsegments.2 hpos
    cases he : (system.process space).exec (sysShmdt kernel shmaddr) with
    | mk result after =>
      cases result
      case ok =>
        obtain ⟨shmid, hm, hwf, hpages, hc⟩ := ok_of_triple hspec rfl he
        exact h.detaches hs hm hwf hpages hc
      case error =>
        have hafter := error_of_triple hspec rfl he
        exact hkept (.unchanged hafter hw)

-- Identifiers that have not been given out are not attached.
theorem Inv.attachments_unused (h : Inv len system) {id : Nat} (hid : system.nextShmid ≤ id) :
    system.attachments id = 0 := by
  by_contra hne
  have ⟨segment, hm⟩ := h.counts.exists_of id (Nat.pos_of_ne_zero hne)
  exact Nat.not_lt.mpr hid (h.counts.used id segment hm)

theorem Inv.shmget (h : Inv len system) (key : Int) (size : Nat) (shmflg : BitVec 32) :
    ∃ len', Inv len' (system.sysShmget key size shmflg).2 := by
  have hunchanged : ∃ len', Inv len' system := ⟨len, h⟩
  simp only [sysShmget]
  split
  case h_1 =>
    split
    case isTrue => exact hunchanged
    case isFalse => split <;> exact hunchanged
  case h_2 =>
    split
    case isTrue => exact hunchanged
    case isFalse =>
      split
      case isTrue => exact hunchanged
      case isFalse =>
        split
        case h_1 => exact hunchanged
        case h_2 mapLen _ =>
          split
          case isTrue => exact hunchanged
          case isFalse hsupply =>
            have hlen : (system.frames.supply.take (mapLen / pageSize)).length = mapLen / pageSize := by
              rw [List.length_take]
              omega
            -- Nothing is attached at the new identifier.
            have hfresh (space : Nat) (hs : space ∈ system.live) (vpn : Nat) (attachment : Nat × Nat)
                (hp : ShmPage (system.spaces space).memorySet.areas vpn attachment) :
                attachment.1 ≠ system.nextShmid := by
              intro he
              have hm := (mem_attachments (h.wf space hs).areas).mpr ⟨vpn, hp⟩
              have hpos := attachments_pos hs hm
              rw [he, h.attachments_unused (Nat.le_refl _)] at hpos
              exact Nat.lt_irrefl 0 hpos
            refine ⟨update len system.nextShmid (mapLen / pageSize), h.wf, fun space hs vpn attachment hp => ?_,
              h.fresh, h.counts.append (by exact hlen) (h.attachments_unused (Nat.le_refl _)) rfl, h.marked.append rfl⟩
            rw [update_of_ne (hfresh space hs vpn attachment hp)]
            exact h.placed space hs vpn attachment hp

theorem Inv.shmctl (h : Inv len system) (shmid : Nat) (cmd : BitVec 32) (copied : Except SysErrNo Unit) :
    Inv len (system.sysShmctl shmid cmd copied).2 := by
  simp only [sysShmctl]
  split
  case isTrue => split <;> exact h
  case isFalse =>
    split
    case isTrue => exact h
    case isFalse =>
      split
      case isFalse => exact h
      case isTrue =>
        split
        case h_1 => exact h
        case h_2 segment hs =>
          have ⟨hc, hm⟩ := h.counts.mark h.marked (mem_of_lookup hs)
          exact ⟨h.wf, h.placed, h.fresh, hc, hm⟩

-- The members of a group and the ones of all others.

theorem mem_live_iff (index : Nat) : space ∈ system.live ↔
    space ∈ system.group index ∨ space ∈ (system.groups.eraseIdx index).flatten := by
  simp only [live, List.mem_toFinset, group]
  cases hg : system.groups[index]?
  case none =>
    rw [List.eraseIdx_of_length_le (List.getElem?_eq_none_iff.mp hg)]
    simp
  case some members =>
    rw [List.eraseIdx_eq_take_drop_succ]
    conv => lhs; rw [Lists.split_at hg]
    simp only [List.flatten_append, List.flatten_cons, List.mem_append, Option.getD_some]
    rw [or_left_comm]

theorem mem_live_set {members : List Nat} (hs : space ∈ system.group index) {other : Nat} :
    other ∈ { system with groups := system.groups.set index members }.live ↔
    other ∈ members ∨ other ∈ (system.groups.eraseIdx index).flatten := by
  simp only [group] at hs
  cases hg : system.groups[index]?
  case none => simp [hg] at hs
  case some old =>
    simp only [live, List.mem_toFinset, Lists.set_split hg, List.eraseIdx_eq_take_drop_succ, List.flatten_append,
      List.flatten_cons, List.mem_append]
    rw [or_left_comm]

-- Members without attachments end.
theorem Inv.shrink (h : Inv len system) {groups : List (List Nat)}
    (hsub : { system with groups }.live ⊆ system.live)
    (hz : ∀ other ∈ system.live, other ∉ { system with groups }.live →
      taskSharedMemoryAttachments (system.spaces other).memorySet = []) : Inv len { system with groups } := by
  have hsame (id : Nat) : { system with groups }.attachments id = system.attachments id :=
    Finset.sum_subset hsub fun other ho hn => attachedTo_eq_zero (hz other ho hn) id
  exact ⟨fun other ho => h.wf other (hsub ho), fun other ho => h.placed other (hsub ho),
    fun other ho => h.fresh other (hsub ho), h.counts.congr hsame, h.marked⟩

theorem Inv.execve (h : Inv len system) (hs : space ∈ system.group index) {tgid : Nat} {now : Int}
    {image : AddressSpace} (hv : (Event.execve tgid now image).Valid)
    (hcareful : system.Careful index space (.execve tgid now image)) :
    Inv len (system.sysExecve index space tgid now image) := by
  have hshrunk : Inv len { system with groups := system.groups.set index [space] } := by
    refine h.shrink (fun other ho => ?_) fun other ho hn => ?_
    case refine_1 =>
      cases (mem_live_set hs).mp ho
      case inl he => exact List.mem_singleton.mp he ▸ mem_live hs
      case inr ho => exact (mem_live_iff index).mpr (.inr ho)
    case refine_2 =>
      have hn := (mem_live_set hs).not.mp hn
      simp only [List.mem_singleton, not_or] at hn
      cases (mem_live_iff index).mp ho
      case inl ho => exact ((hcareful other ho).resolve_left hn.1).resolve_left hn.2
      case inr ho => exact absurd ho hn.2
  have hlive : space ∈ { system with groups := system.groups.set index [space] }.live :=
    (mem_live_set hs).mpr (.inl (.head _))
  have hle := attached_le hlive
  have ⟨hc, hm⟩ := detach_counts tgid now hshrunk.counts hshrunk.marked hle
  refine hshrunk.setProcess ⟨image.memorySet, image.mm,
    detachTaskSharedMemory tgid now (system.spaces space).memorySet system.segments, system.frames⟩
    hlive hv.1 (fun vpn attachment hp => ?_) fun count' hcount => ?_
  case refine_1 =>
    have := (mem_attachments hv.1.areas).mpr ⟨vpn, hp⟩
    rw [hv.2] at this
    cases this
  case refine_2 =>
    refine ⟨hc.congr fun id => ?_, hm⟩
    have := hcount id
    rw [attachedTo_eq_zero hv.2] at this
    exact Nat.eq_sub_of_add_eq this

-- All members of a group detach what they have attached.
theorem detachGroup_counts (spaces : Nat → AddressSpace) (tgid : Nat) (now : Int) (members : List Nat)
    (h : Counts next len count segments) (hm : Marked [] segments)
    (hle : ∀ id, (members.map fun member => attachedTo (spaces member).memorySet id).sum ≤ count id) :
    let segments' := members.foldl (fun segments member =>
      detachTaskSharedMemory tgid now (spaces member).memorySet segments) segments
    Counts next len (fun id => count id - (members.map fun member => attachedTo (spaces member).memorySet id).sum)
      segments' ∧ Marked [] segments' := by
  induction members generalizing count segments
  case nil => simpa using ⟨h, hm⟩
  case cons member members hi =>
    simp only [List.map_cons, List.sum_cons] at hle ⊢
    have hfirst (id : Nat) : attachedTo (spaces member).memorySet id ≤ count id :=
      Nat.le_trans (Nat.le_add_right _ _) (hle id)
    have ⟨hc, hm⟩ := detach_counts tgid now h hm hfirst
    have := hi hc hm fun id => Nat.le_sub_of_add_le' (hle id)
    simp only [Nat.sub_sub] at this
    exact this

-- A group exits with all its members. No other group has attachments in common with it.
theorem Inv.exitGroup (h : Inv len system) (tgid : Nat) (now : Int)
    (hz : ∀ member ∈ system.group index, member ∉ (system.groups.eraseIdx index).flatten ∨
      taskSharedMemoryAttachments (system.spaces member).memorySet = []) :
    Inv len (system.exitGroup index tgid now) := by
  have hsub (other : Nat) (ho : other ∈ (system.exitGroup index tgid now).live) : other ∈ system.live := by
    refine (mem_live_iff index).mpr (.inr ?_)
    simpa [live, ShmSystem.exitGroup] using ho
  have hsum (id : Nat) : (system.exitGroup index tgid now).attachments id +
      ((system.group index).dedup.map fun member => attachedTo (system.spaces member).memorySet id).sum =
      system.attachments id := by
    have hgroup : ((system.group index).dedup.map fun member => attachedTo (system.spaces member).memorySet id).sum =
        ∑ member ∈ (system.group index).dedup.toFinset, system.attached id member :=
      (List.sum_toFinset _ (List.nodup_dedup _)).symm
    have hrest : ∑ member ∈ system.live \ (system.exitGroup index tgid now).live, system.attached id member =
        ∑ member ∈ (system.group index).dedup.toFinset, system.attached id member := by
      refine Finset.sum_subset (fun other ho => ?_) fun other ho hn => ?_
      case refine_1 =>
        have ⟨ho, hn⟩ := Finset.mem_sdiff.mp ho
        simpa using ((mem_live_iff index).mp ho).resolve_right (by simpa [live, ShmSystem.exitGroup] using hn)
      case refine_2 =>
        simp only [List.mem_toFinset, List.mem_dedup] at ho
        simp only [Finset.mem_sdiff, (mem_live_iff index).mpr (.inl ho), true_and, not_not] at hn
        refine attachedTo_eq_zero ((hz other ho).resolve_left (not_not.mpr ?_)) id
        simpa [live, ShmSystem.exitGroup] using hn
    rw [hgroup, ← hrest, Nat.add_comm]
    exact Finset.sum_sdiff hsub
  have ⟨hc, hm⟩ := detachGroup_counts system.spaces tgid now (system.group index).dedup h.counts h.marked
    fun id => by rw [← hsum id]; exact Nat.le_add_left _ _
  refine ⟨fun other ho => h.wf other (hsub other ho), fun other ho => h.placed other (hsub other ho),
    fun other ho => h.fresh other (hsub other ho), hc.congr fun id => Nat.eq_sub_of_add_eq (hsum id), hm⟩

theorem Inv.exit (h : Inv len system) (hs : space ∈ system.group index) {tgid : Nat} {now : Int}
    (hcareful : system.Careful index space (.exit tgid now)) : Inv len (system.exit index space tgid now) := by
  simp only [Careful] at hcareful
  simp only [ShmSystem.exit]
  split
  case isTrue hlast =>
    rw [if_pos hlast] at hcareful
    refine h.exitGroup tgid now fun member hm => ?_
    have hone : member = space := by
      have ⟨only, ho⟩ := List.length_eq_one_iff.mp (Nat.le_antisymm hlast (List.length_pos_of_mem hs))
      rw [ho, List.mem_singleton] at hm hs
      rw [hm, hs]
    rw [hone]
    exact hcareful
  case isFalse hmore =>
    rw [if_neg hmore] at hcareful
    refine h.shrink (fun other ho => ?_) fun other ho hn => ?_
    case refine_1 =>
      exact (mem_live_iff index).mpr (((mem_live_set hs).mp ho).imp_left List.mem_of_mem_erase)
    case refine_2 =>
      have hn := (mem_live_set hs).not.mp hn
      simp only [not_or] at hn
      have hg := ((mem_live_iff index).mp ho).resolve_right hn.2
      have hone : other = space := by
        by_contra hne
        exact hn.1 ((List.mem_erase_of_ne hne).mpr hg)
      subst hone
      exact (hcareful.resolve_left hn.1).resolve_left hn.2

theorem addMember_eq (system : ShmSystem) (hs : space ∈ system.group index) (child : Nat) (isThread : Bool) :
    ∃ groups, system.addMember index child isThread = { system with groups } ∧
      { system with groups }.live = insert child system.live := by
  cases isThread
  case false =>
    refine ⟨system.groups ++ [[child]], rfl, ?_⟩
    ext other
    simp [live]
  case true =>
    refine ⟨system.groups.set index (system.group index ++ [child]), rfl, ?_⟩
    ext other
    rw [mem_live_set hs, Finset.mem_insert, mem_live_iff index, List.mem_append, List.mem_singleton]
    rw [or_comm (a := other ∈ system.group index), or_assoc]

-- A child that shares the address space of its parent.
theorem Inv.share (h : Inv len system) (hs : space ∈ system.group index) (isThread : Bool) :
    Inv len (system.addMember index space isThread) := by
  have ⟨groups, he, hlive⟩ := addMember_eq system hs space isThread
  rw [Finset.insert_eq_of_mem (mem_live hs)] at hlive
  rw [he]
  exact h.shrink (hlive ▸ Finset.Subset.refl _) fun other ho hn => absurd (hlive ▸ ho) hn

-- A new address space that no member has yet.
def allocate (system : ShmSystem) (child : AddressSpace) : ShmSystem :=
  { system with spaces := update system.spaces system.nextSpace child, nextSpace := system.nextSpace + 1 }

theorem Inv.allocate_spaces (h : Inv len system) (child : AddressSpace) (hs : space ∈ system.live) :
    (system.allocate child).spaces space = system.spaces space :=
  update_of_ne (Nat.ne_of_lt (h.fresh space hs)) ..

theorem Inv.allocate_attachments (h : Inv len system) (child : AddressSpace) (id : Nat) :
    (system.allocate child).attachments id = system.attachments id :=
  Finset.sum_congr rfl fun other ho => by simp only [attached, h.allocate_spaces child ho]

theorem Inv.allocate (h : Inv len system) (child : AddressSpace) : Inv len (system.allocate child) where
  wf other ho := by
    rw [h.allocate_spaces child ho]
    exact h.wf other ho
  placed other ho := by
    rw [h.allocate_spaces child ho]
    exact h.placed other ho
  fresh other ho := Nat.lt_succ_of_lt (h.fresh other ho)
  counts := h.counts.congr (h.allocate_attachments child)
  marked := h.marked

-- The child of a fork inherits the attachments of its parent.
theorem Inv.inherit (h : Inv len system) (hs : space ∈ system.live) (child : Nat) (hc : child ∉ system.live)
    (hfresh : child < system.nextSpace) (hwf : (system.spaces child).memorySet.WF)
    (hpages : ∀ vpn attachment, ShmPage (system.spaces child).memorySet.areas vpn attachment ↔
      ShmPage (system.spaces space).memorySet.areas vpn attachment)
    (hmax : ∀ id, system.attachments id + system.attached id space ≤ Usize.max) {groups : List (List Nat)}
    (hlive : { system with groups }.live = insert child system.live) :
    Inv len { system with
      groups, segments := inheritTaskSharedMemory (system.spaces child).memorySet system.segments } := by
  have hattachments (attachment : Nat × Nat) :
      attachment ∈ taskSharedMemoryAttachments (system.spaces child).memorySet ↔
      attachment ∈ taskSharedMemoryAttachments (system.spaces space).memorySet := by
    rw [mem_attachments hwf.areas, mem_attachments (h.wf space hs).areas]
    exact exists_congr fun vpn => hpages vpn attachment
  have hcount := attachedTo_congr hattachments
  have ⟨hcounts, hmarked⟩ := inherit_counts (taskSharedMemoryAttachments (system.spaces child).memorySet)
    h.counts h.marked (fun attachment ha => attachments_pos hs ((hattachments attachment).mp ha))
    fun id => (congrArg (system.attachments id + ·) (hcount id)).trans_le (hmax id)
  have hmem (other : Nat) (ho : other ∈ { system with groups }.live) : other = child ∨ other ∈ system.live :=
    Finset.mem_insert.mp (hlive ▸ ho)
  refine ⟨fun other ho => ?_, fun other ho => ?_, fun other ho => ?_, ?_, hmarked⟩
  case refine_1 =>
    cases hmem other ho
    case inl he => exact he ▸ hwf
    case inr ho => exact h.wf other ho
  case refine_2 =>
    cases hmem other ho
    case inl he =>
      subst he
      exact fun vpn attachment hp => h.placed space hs vpn attachment ((hpages vpn attachment).mp hp)
    case inr ho => exact h.placed other ho
  case refine_3 =>
    cases hmem other ho
    case inl he => exact he ▸ hfresh
    case inr ho => exact h.fresh other ho
  case refine_4 =>
    refine hcounts.congr fun id => ?_
    have hsum : ∑ other ∈ { system with groups }.live, system.attached id other =
        system.attachments id + system.attached id child := by
      rw [hlive, Finset.sum_insert hc, Nat.add_comm]
      rfl
    exact hsum

-- The child of a fork gets a new address space and joins a group.
theorem Inv.adopt (h : Inv len system) (hs : space ∈ system.group index) (child : AddressSpace) (isThread : Bool)
    (hwf : child.memorySet.WF)
    (hpages : ∀ vpn attachment, ShmPage child.memorySet.areas vpn attachment ↔
      ShmPage (system.spaces space).memorySet.areas vpn attachment)
    (hmax : ∀ id, system.attachments id + system.attached id space ≤ Usize.max) :
    let system' := { system.allocate child with
      segments := inheritTaskSharedMemory child.memorySet system.segments }.addMember index system.nextSpace isThread
    Inv len system' ∧ space ∈ system'.live ∧ system'.spaces space = system.spaces space := by
  have hlive := mem_live hs
  have hnew : (system.allocate child).spaces system.nextSpace = child := update_self ..
  have hsame := h.allocate_spaces child hlive
  have ⟨groups, he, hgroups⟩ := addMember_eq { system.allocate child with
    segments := inheritTaskSharedMemory child.memorySet system.segments } hs system.nextSpace isThread
  dsimp only
  rw [he]
  refine ⟨?_, hgroups ▸ Finset.mem_insert_of_mem hlive, hsame⟩
  have hinherited := (h.allocate child).inherit hlive system.nextSpace
    (fun hn => Nat.lt_irrefl _ (h.fresh _ hn)) (Nat.lt_succ_self _) (by rwa [hnew])
    (fun vpn attachment => by rw [hnew, hsame, hpages])
    (fun id => by rw [h.allocate_attachments, attached, hsame]; exact hmax id) hgroups
  rw [hnew] at hinherited
  exact hinherited

theorem Inv.clone (h : Inv len system) (hs : space ∈ system.group index) {flags : BitVec 64}
    {written : Except SysErrNo Unit} (hcareful : system.Careful index space (.clone flags written)) :
    Inv len (system.sysClone index space flags written).2 := by
  have hlive := mem_live hs
  have hw := h.wf space hlive
  simp only [Careful] at hcareful
  simp only [sysClone]
  split
  case h_1 => exact h
  case h_2 isThread _ =>
    split
    case h_1 => exact h
    case h_2 => exact h.share hs isThread
  case h_3 isThread hkind =>
    have ⟨hwritten, hmax⟩ := hcareful isThread hkind
    -- The parent keeps its attachments, whether there is a child or not.
    have hparent {system' : ShmSystem} (h' : Inv len system') (hlive' : space ∈ system'.live)
        (hspace : system'.spaces space = system.spaces space) (frames : Frames) :
        Inv len (system'.setProcess space ⟨((system.spaces space).memorySet.forkCow system.frames).1,
          (system.spaces space).mm, system'.segments, frames⟩) := by
      refine h'.kept none hlive' ?_ ⟨h'.counts, h'.marked⟩ nofun
      rw [hspace]
      exact .of_policyAt (MemorySet.forkCow_wf _ hw) (MemorySet.forkCow_policyAt _ hw)
    split
    case h_1 memorySet frames error he =>
      have := hparent h hlive rfl frames
      rw [he] at this
      exact this
    case h_2 memorySet frames childMemory he =>
      have hchild := (MemorySet.forkCow_spec system.frames hw.areas).child_wf hw (by rw [he])
      have hpages (vpn : Nat) (attachment : Nat × Nat) : ShmPage childMemory.areas vpn attachment ↔
          ShmPage (system.spaces space).memorySet.areas vpn attachment :=
        exists₂_congr fun _ _ => MemorySet.forkCow_child_policyAt hw (by rw [he])
      have hcomm := Function.update_comm (Nat.ne_of_lt (h.fresh space hlive)) ⟨memorySet, (system.spaces space).mm⟩
        ⟨childMemory, (system.spaces space).mm⟩ system.spaces
      rw [hcomm]
      rw [he] at hparent
      split
      case h_1 =>
        have hnil : taskSharedMemoryAttachments childMemory = [] := by
          rw [List.eq_nil_iff_forall_not_mem]
          intro attachment ha
          rw [mem_attachments hchild.1.areas] at ha
          have ⟨vpn, hp⟩ := ha
          have ha := (mem_attachments hw.areas).mpr ⟨vpn, (hpages vpn attachment).mp hp⟩
          rw [hwritten.resolve_left nofun] at ha
          cases ha
        simp only [inheritTaskSharedMemory, hnil]
        exact hparent (h.allocate ⟨childMemory, (system.spaces space).mm⟩) hlive (h.allocate_spaces _ hlive) frames
      case h_2 =>
        have ⟨hadopted, hmember, hspace⟩ :=
          h.adopt hs ⟨childMemory, (system.spaces space).mm⟩ isThread hchild.1 hpages hmax
        cases isThread <;> exact hparent hadopted hmember hspace frames

theorem Inv.apply {event : Event} (h : Inv len system) (hs : space ∈ system.group index) (hv : event.Valid)
    (hcareful : system.Careful index space event) : ∃ len', Inv len' (event.apply system index space) := by
  cases event
  case syscall => exact ⟨len, h.syscall (mem_live hs) hv hcareful⟩
  case shmget => exact h.shmget ..
  case shmctl => exact ⟨len, h.shmctl ..⟩
  case clone => exact ⟨len, h.clone hs hcareful⟩
  case execve => exact ⟨len, h.execve hs hv hcareful⟩
  case exit => exact ⟨len, h.exit hs hcareful⟩
  case exitGroup => exact ⟨len, h.exitGroup _ _ hcareful⟩

theorem Initial.inv (h : system.Initial) : Inv (fun _ => 0) system := by
  have ⟨space, hlt, hgroups, hw, hnil, hsegments⟩ := h
  have honly (other : Nat) (ho : other ∈ system.live) : other = space := by
    simpa [live, hgroups] using ho
  have hz (id : Nat) : system.attachments id = 0 :=
    Finset.sum_eq_zero fun other ho => honly other ho ▸ attachedTo_eq_zero hnil id
  refine ⟨fun other ho => honly other ho ▸ hw, fun other ho vpn attachment hp => ?_,
    fun other ho => honly other ho ▸ hlt, ⟨?_, ?_, ?_, ?_, ?_⟩, ?_⟩
  case refine_1 =>
    have := (mem_attachments (honly other ho ▸ hw).areas).mpr ⟨vpn, hp⟩
    rw [honly other ho, hnil] at this
    cases this
  case refine_6 => exact fun id hpos => absurd (hz id) (Nat.ne_of_gt hpos)
  all_goals simp [hsegments, Marked]

theorem Reachable.inv (h : Reachable Careful system system') (hi : system.Initial) : ∃ len, Inv len system' := by
  induction h
  case refl => exact ⟨_, hi.inv⟩
  case step hs hv hcareful hind =>
    have ⟨_, hinv⟩ := hind
    exact hinv.apply hs hv hcareful

-- As long as all processes are careful, segments count their attachments.
theorem attachments_accounted (system system' : ShmSystem) (hi : system.Initial)
    (h : Reachable Careful system system') : system'.Accounted := by
  have ⟨_, hinv⟩ := h.inv hi
  exact hinv.accounted

-- A process that has attached nothing, and a free frame.
def oneProcess : ShmSystem where
  spaces    := fun _ => ⟨MemorySet.newBare, Process.bare.mm⟩
  groups    := [[0]]
  segments  := []
  frames    := ⟨fun _ => .zero, [7]⟩
  nextSpace := 1
  nextShmid := 1

theorem oneProcess_initial : oneProcess.Initial :=
  ⟨0, Nat.one_pos, rfl, MemorySet.Coherent.newBare.toWF, rfl, rfl⟩

-- It creates a segment of one page and attaches it.
def createSegment : Event := .shmget Ipc.priv 0x1000 0

def attachSegment : Event := .syscall Process.bareKernel (.shmat 1 0 0)

def attachedOnce : ShmSystem :=
  attachSegment.apply (createSegment.apply oneProcess 0 0) 0 0

theorem bareKernel_lawful : Process.bareKernel.env.Lawful (fun _ => True) :=
  ⟨fun _ => Nat.one_pos, by simp [Process.bareKernel, World.noFiles]⟩

-- The process forks, and its child detaches the segment.
def forkedOnce : ShmSystem :=
  (Event.clone 17 (.ok ())).apply attachedOnce 0 0

def detachSegment : Event := .syscall Process.bareKernel (.shmdt 0x20000000)

theorem detached_accounted : (detachSegment.apply forkedOnce 1 1).attachments 1 = 1 ∧
    (detachSegment.apply forkedOnce 1 1).Accounted := by
  refine ⟨by decide_cbv, attachments_accounted oneProcess _ oneProcess_initial ?_⟩
  have hcreated : Reachable Careful oneProcess (createSegment.apply oneProcess 0 0) :=
    .step .refl (by decide) trivial trivial
  have hattached : Reachable Careful oneProcess attachedOnce := by
    refine .step hcreated (by decide_cbv) ⟨bareKernel_lawful, by simp⟩ ⟨fun range hr => ?_, ?_⟩
    case refine_1 =>
      have hnone : (Syscall.shmat 1 0 0).unmaps Process.bareKernel
        ((createSegment.apply oneProcess 0 0).process 0) = none := by decide_cbv
      rw [hnone] at hr
      cases hr
    case refine_2 =>
      intro shmid shmaddr shmflg he
      cases he
      decide_cbv
  have hforked : Reachable Careful oneProcess forkedOnce := by
    refine .step hattached (by decide_cbv) trivial fun isThread _ => ⟨.inl rfl, fun shmid => ?_⟩
    have hone : taskSharedMemoryAttachments (attachedOnce.spaces 0).memorySet = [(1, 0x20000000)] := by decide_cbv
    have hlive : attachedOnce.live = {0} := by decide_cbv
    have hle : attachedOnce.attached shmid 0 ≤ 1 := by
      rw [attached, hone]
      exact List.countP_le_length
    have hmax : 2 ≤ Usize.max := by decide_cbv
    rw [attachments, hlive, Finset.sum_singleton]
    omega
  refine .step hforked (by decide_cbv) ⟨bareKernel_lawful, by simp⟩ ⟨fun range hr => ?_, fun _ _ _ he => by cases he⟩
  have hnone : (Syscall.shmdt 0x20000000).unmaps Process.bareKernel (forkedOnce.process 1) = none := rfl
  rw [hnone] at hr
  cases hr

-- Or else, the process unmaps the page.
def unmappedOnce : ShmSystem :=
  (Event.syscall Process.bareKernel (.munmap 0x20000000 0x1000)).apply attachedOnce 0 0

-- The segment is not attached any more, but it is still counted.
theorem munmap_keeps_attachCount :
    Reachable (fun _ _ _ _ => True) oneProcess unmappedOnce ∧ ¬unmappedOnce.Accounted := by
  refine ⟨?_, fun h => ?_⟩
  case refine_1 =>
    have hcreated : Reachable (fun _ _ _ _ => True) oneProcess (createSegment.apply oneProcess 0 0) :=
      .step .refl (by decide) trivial trivial
    have hattached : Reachable (fun _ _ _ _ => True) oneProcess attachedOnce :=
      .step hcreated (by decide_cbv) ⟨bareKernel_lawful, by simp⟩ trivial
    exact .step hattached (by decide_cbv) ⟨bareKernel_lawful, by simp⟩ trivial
  case refine_2 =>
    have hsegments : unmappedOnce.segments = [(1, ⟨0, 0x1000, 1, 0, 0, [7], 1, false⟩)] := by decide_cbv
    have hcount := h.attachCount 1 _ (by rw [hsegments]; exact .head _)
    have hz : unmappedOnce.attachments 1 = 0 := by decide_cbv
    rw [hz] at hcount
    cases hcount

end ShmSystem

end WllOs
