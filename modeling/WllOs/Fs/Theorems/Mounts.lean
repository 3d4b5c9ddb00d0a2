import WllOs.Fs.Mounts

namespace WllOs.Fs

open Lists Mount

namespace Vfs

variable {V : Type} {vfs : Vfs V} {entry : MountEntry V} {path : HostPath String}

-- No two mounts have the same target, and the root mount is the one whose target is the root directory.
structure TableInv (mounts : List (MountEntry V)) : Prop where
  nodup   : (mounts.map MountEntry.hostTarget).Nodup
  root    : ∃ entry ∈ mounts, entry.hostTarget = []
  backend : ∀ entry ∈ mounts, entry.backend = .root ↔ entry.hostTarget = []
  logical : ∀ entry ∈ mounts, entry.hostTarget = [] → entry.logicalTarget = []

namespace TableInv

variable {mounts : List (MountEntry V)}

theorem boot : TableInv ([⟨[], [], .root, false⟩] : List (MountEntry V)) where
  nodup   := List.nodup_singleton _
  root    := ⟨_, List.mem_singleton_self _, rfl⟩
  backend := by simp
  logical := by simp

theorem eq_of_target (h : TableInv mounts) {a b : MountEntry V} (ha : a ∈ mounts) (hb : b ∈ mounts)
    (he : a.hostTarget = b.hostTarget) : a = b :=
  List.inj_on_of_nodup_map h.nodup ha hb he

-- A remount changes one flag.
theorem modify (h : TableInv mounts) (index : Nat) (readonly : Bool) :
    TableInv (mounts.modify index ({ · with readonly })) := by
  have hmem : ∀ entry ∈ mounts.modify index ({ · with readonly }), ∃ old ∈ mounts,
      entry.hostTarget = old.hostTarget ∧ entry.backend = old.backend ∧ entry.logicalTarget = old.logicalTarget := by
    intro entry he
    have ⟨i, he⟩ := List.mem_iff_getElem?.mp he
    rw [List.getElem?_modify] at he
    cases ho : mounts[i]? <;> rw [ho] at he <;> cases he
    case some old =>
      refine ⟨old, List.mem_of_getElem? ho, ?_⟩
      split <;> exact ⟨rfl, rfl, rfl⟩
  have hmap : (mounts.modify index ({ · with readonly })).map MountEntry.hostTarget =
      mounts.map MountEntry.hostTarget := by
    apply List.ext_getElem?
    intro i
    rw [List.getElem?_map, List.getElem?_map, List.getElem?_modify]
    cases mounts[i]? <;> simp
    split <;> rfl
  constructor
  case nodup => rw [hmap]; exact h.nodup
  case root =>
    have ⟨old, ho, ht⟩ := h.root
    have hm := List.mem_map_of_mem (f := MountEntry.hostTarget) ho
    rw [← hmap] at hm
    have ⟨entry, he, ht'⟩ := List.mem_map.mp hm
    exact ⟨entry, he, ht'.trans ht⟩
  case backend =>
    intro entry he
    have ⟨old, ho, ht, hb, _⟩ := hmem entry he
    rw [ht, hb]
    exact h.backend old ho
  case logical =>
    intro entry he
    have ⟨old, ho, ht, _, hl⟩ := hmem entry he
    rw [ht, hl]
    exact h.logical old ho

theorem concat (h : TableInv mounts) (hn : ∀ old ∈ mounts, old.hostTarget ≠ entry.hostTarget)
    (hb : entry.backend ≠ .root) : TableInv (mounts ++ [entry]) := by
  have ht : entry.hostTarget ≠ [] := by
    have ⟨old, ho, ht⟩ := h.root
    exact fun he => hn old ho (ht.trans he.symm)
  constructor
  case nodup =>
    rw [List.map_append, List.nodup_append]
    refine ⟨h.nodup, List.nodup_singleton _, fun a ha b hb => ?_⟩
    have ⟨old, ho, he⟩ := List.mem_map.mp ha
    rw [← he, List.mem_singleton.mp hb]
    exact hn old ho
  case root =>
    have ⟨old, ho, ht⟩ := h.root
    exact ⟨old, List.mem_append_left _ ho, ht⟩
  case backend =>
    intro e he
    cases List.mem_append.mp he
    case inl he => exact h.backend e he
    case inr he =>
      rw [List.mem_singleton.mp he]
      exact ⟨fun h => absurd h hb, fun h => absurd h ht⟩
  case logical =>
    intro e he
    cases List.mem_append.mp he
    case inl he => exact h.logical e he
    case inr he =>
      rw [List.mem_singleton.mp he]
      exact fun h => absurd h ht

theorem sublist {rest : List (MountEntry V)} (h : TableInv mounts) (hs : rest.Sublist mounts)
    (hr : ∃ entry ∈ rest, entry.hostTarget = []) : TableInv rest where
  nodup   := h.nodup.sublist (hs.map _)
  root    := hr
  backend := fun entry he => h.backend entry (hs.subset he)
  logical := fun entry he => h.logical entry (hs.subset he)

end TableInv

theorem resolveMountBackend_ne_root {source : MountSource V} {fstype : FsType} {backend : MountBackend V}
    (h : source.resolveMountBackend fstype = .ok backend) : backend ≠ .root := by
  intro he
  subst he
  cases fstype <;> simp only [MountSource.resolveMountBackend] at h
  case tmpfs => cases h
  case vfat =>
    split at h
    case h_1 volume _ => cases volume <;> cases h
    case h_2 => split at h <;> cases h
  case ext4 => split at h <;> cases h
  case other => cases h

theorem mountFs_inv (h : TableInv vfs.mounts) (fresh : HostPath String → Metadata) (request : MountRequest V) :
    TableInv (vfs.mountFs fresh request).2.mounts := by
  unfold mountFs
  dsimp only
  split
  case isTrue => exact h
  case isFalse =>
    split
    case isTrue =>
      split
      case h_1 => exact h
      case h_2 index _ => exact h.modify index _
    case isFalse =>
      split
      case h_1 => exact h
      case h_2 backend hb =>
        split
        case h_1 => exact h
        case h_2 =>
          split
          case isTrue => cases backend.isTmpfs <;> exact h
          case isFalse hm =>
            refine h.concat (fun old ho he => hm ?_) (resolveMountBackend_ne_root hb)
            exact List.any_eq_true.mpr ⟨old, ho, by simpa using he⟩

theorem umountFs_inv (h : TableInv vfs.mounts) (logicalTarget hostTarget : HostPath String) (flags : BitVec 64) :
    TableInv (vfs.umountFs logicalTarget hostTarget flags).2.mounts := by
  unfold umountFs
  split
  case isTrue => exact h
  case isFalse =>
    split
    case h_1 => exact h
    case h_2 index hi =>
      split
      case isTrue => exact h
      case isFalse hl =>
        have hs : (vfs.mounts.reverse.eraseIdx index).reverse.Sublist vfs.mounts := by
          have hs := (List.eraseIdx_sublist vfs.mounts.reverse index).reverse
          rwa [List.reverse_reverse] at hs
        refine h.sublist hs ?_
        have ⟨root, hr, ht⟩ := h.root
        have ⟨hlt, hp, _⟩ := List.findIdx?_eq_some_iff_getElem.mp hi
        refine ⟨root, List.mem_reverse.mpr ?_, ht⟩
        rw [List.mem_eraseIdx_iff_getElem]
        have ⟨i, hi', he⟩ := List.mem_iff_getElem.mp (List.mem_reverse.mpr hr)
        refine ⟨i, hi', fun hii => hl ?_, he⟩
        subst hii
        rw [he] at hp
        simp only [Bool.and_eq_true, decide_eq_true_eq] at hp
        rw [← hp.1, h.logical root hr ht]
        rfl

theorem Reachable.inv (h : vfs.Reachable) : TableInv vfs.mounts := by
  induction h
  case boot hb => exact hb ▸ TableInv.boot
  case mount fresh request _ hi => exact mountFs_inv hi fresh request
  case umount logicalTarget hostTarget flags _ hi => exact umountFs_inv hi logicalTarget hostTarget flags
  case other hm hi => exact hm ▸ hi

section Innermost

variable {q : MountEntry V → Bool}

theorem innermost_mem (h : vfs.innermost path = some entry) : entry ∈ vfs.mounts ∧ entry.hostTarget <+: path := by
  have ⟨hm, hp⟩ := List.mem_filter.mp (maxByKey_mem h)
  exact ⟨hm, List.isPrefixOf_iff_prefix.mp hp⟩

theorem exists_innermost (hi : TableInv vfs.mounts) (path : HostPath String) :
    ∃ entry, vfs.innermost path = some entry := by
  have ⟨root, hr, ht⟩ := hi.root
  refine maxByKey_isSome (x := root) (List.mem_filter.mpr ⟨hr, ?_⟩)
  rw [ht]
  rfl

-- All other mounts above a path lie above the innermost one.
theorem depth_lt (hi : TableInv vfs.mounts) (h : vfs.innermost path = some entry) {other : MountEntry V}
    (hm : other ∈ vfs.mounts) (hp : other.hostTarget <+: path) (hn : other ≠ entry) : other.depth < entry.depth := by
  have ⟨he, hep⟩ := innermost_mem h
  apply Nat.lt_of_le_of_ne
  case h₁ => exact le_of_maxByKey h (List.mem_filter.mpr ⟨hm, List.isPrefixOf_iff_prefix.mpr hp⟩)
  case h₂ =>
    intro hd
    exact hn (hi.eq_of_target hm he (List.prefix_of_prefix_length_le hp hep (Nat.le_of_eq hd) |>.eq_of_length hd))

-- A choice among some of the mounts above a path finds the innermost one, when it is among them.
theorem choose_innermost (hi : TableInv vfs.mounts) (h : vfs.innermost path = some entry)
    (hq : ∀ other ∈ vfs.mounts, q other → other.hostTarget <+: path) (he : q entry) :
    maxByKey MountEntry.depth (vfs.mounts.filter q) = some entry := by
  apply maxByKey_of_greatest (List.mem_filter.mpr ⟨(innermost_mem h).1, he⟩)
  intro other ho hn
  have ⟨hm, hqo⟩ := List.mem_filter.mp ho
  exact depth_lt hi h hm (hq other hm hqo) hn

theorem choose_none (hq : ∀ other ∈ vfs.mounts, ¬q other) :
    maxByKey MountEntry.depth (vfs.mounts.filter q) = none := by
  rw [maxByKey_eq_none, List.filter_eq_nil_iff]
  exact hq

theorem pathIsUnder_of_start {parent : HostPath String} (h : pathIsUnder path parent) : parent <+: path := by
  simp only [pathIsUnder, Bool.or_eq_true, decide_eq_true_eq, Bool.and_eq_true] at h
  cases h
  case inl he => exact he ▸ List.prefix_refl _
  case inr hp => exact List.isPrefixOf_iff_prefix.mp hp.2

theorem pathIsUnder_iff {parent : HostPath String} (hn : parent ≠ []) :
    pathIsUnder path parent ↔ parent <+: path := by
  refine ⟨pathIsUnder_of_start, fun hp => ?_⟩
  simp [pathIsUnder, hn, hp]

theorem target_ne_nil (hi : TableInv vfs.mounts) (hm : entry ∈ vfs.mounts) (hb : entry.backend ≠ .root) :
    entry.hostTarget ≠ [] :=
  fun ht => hb ((hi.backend entry hm).mpr ht)

theorem covers_innermost (hi : TableInv vfs.mounts) (h : vfs.innermost path = some entry)
    (hb : entry.backend ≠ .root) : entry.covers path := by
  have ⟨hm, hp⟩ := innermost_mem h
  exact (pathIsUnder_iff (target_ne_nil hi hm hb)).mpr hp

-- Below the root mount alone there is no other mount.
theorem eq_root (hi : TableInv vfs.mounts) (h : vfs.innermost path = some entry) (hb : entry.backend = .root)
    {other : MountEntry V} (hm : other ∈ vfs.mounts) (hp : other.hostTarget <+: path) : other = entry := by
  have ⟨he, _⟩ := innermost_mem h
  apply Classical.byContradiction
  intro hn
  have hd := depth_lt hi h hm hp hn
  rw [MountEntry.depth, MountEntry.depth, (hi.backend entry he).mp hb] at hd
  cases hd

end Innermost

section Routes

theorem mountedVfat_innermost (hi : TableInv vfs.mounts) (h : vfs.innermost path = some entry) {volume : V}
    (hb : entry.backend = .vfat volume) : vfs.mountedVfatBackend path = some (volume, entry.backendPath path) := by
  have hc := covers_innermost hi h (by rw [hb]; exact nofun)
  have hm : vfs.mountedVfat path = some entry := by
    apply choose_innermost hi h
    case hq =>
      intro other _ hq
      exact pathIsUnder_of_start (Bool.and_eq_true_iff.mp hq).2
    case he => simp [hb, hc, MountBackend.volume?]
  simp [mountedVfatBackend, hm, hb, MountBackend.volume?]

theorem mountedVfatBackend_none : vfs.mountedVfatBackend path = none ↔ vfs.mountedVfat path = none := by
  rw [mountedVfatBackend]
  cases hm : vfs.mountedVfat path
  case none => exact ⟨fun _ => rfl, fun _ => rfl⟩
  case some entry =>
    have ⟨_, hq⟩ := List.mem_filter.mp (maxByKey_mem hm)
    have hv := (Bool.and_eq_true_iff.mp hq).1
    cases hb : entry.backend.volume?
    case none => rw [hb] at hv; cases hv
    case some => simp [hb]

theorem mountedExt4_innermost (hi : TableInv vfs.mounts) (h : vfs.innermost path = some entry)
    (hb : entry.backend = .ext4Root) : vfs.mountedExt4BackendPath path = some (entry.backendPath path) := by
  have hr : entry.backend ≠ .root := by rw [hb]; exact nofun
  have ht := target_ne_nil hi (innermost_mem h).1 hr
  have hm : vfs.mountedExt4 path = some entry := by
    apply choose_innermost hi h
    case hq =>
      intro other _ hq
      exact pathIsUnder_of_start (Bool.and_eq_true_iff.mp hq).2
    case he => simp [hb, covers_innermost hi h hr, MountBackend.isExt4, ht]
  rw [mountedExt4BackendPath, hm]
  rfl

theorem isTmpfsPath_innermost (hi : TableInv vfs.mounts) (h : vfs.innermost path = some entry)
    (hb : entry.backend = .tmpfs) : vfs.isTmpfsPath path := by
  have hc := covers_innermost hi h (by rw [hb]; exact nofun)
  rw [isTmpfsPath, Bool.or_eq_true]
  exact .inr (List.any_eq_true.mpr ⟨entry, (innermost_mem h).1, by simp [hb, hc, MountBackend.isTmpfs]⟩)

-- Below the root mount alone no other backend is found.
theorem backends_root (hi : TableInv vfs.mounts) (h : vfs.innermost path = some entry) (hb : entry.backend = .root) :
    vfs.mountedVfatBackend path = none ∧ vfs.mountedExt4BackendPath path = none ∧
      vfs.isTmpfsPath path = isMemfsVolatileDir path := by
  have hroot : ∀ other ∈ vfs.mounts, other.covers path → other.backend = .root := by
    intro other hm hc
    rw [eq_root hi h hb hm (pathIsUnder_of_start hc), hb]
  refine ⟨mountedVfatBackend_none.mpr (choose_none ?_), ?_, ?_⟩
  case refine_1 =>
    intro other hm hq
    have ⟨hv, hc⟩ := Bool.and_eq_true_iff.mp hq
    rw [hroot other hm hc] at hv
    cases hv
  case refine_2 =>
    rw [mountedExt4BackendPath, mountedExt4, choose_none, Option.map_none]
    intro other hm hq
    have ⟨hv, hc⟩ := Bool.and_eq_true_iff.mp hq
    rw [hroot other hm hc] at hv
    cases hv
  case refine_3 =>
    rw [isTmpfsPath, Bool.or_eq_left_iff_imp, List.any_eq_true]
    intro ⟨other, hm, hq⟩
    have ⟨hv, hc⟩ := Bool.and_eq_true_iff.mp hq
    rw [hroot other hm hc] at hv
    cases hv

-- The routines for some path act on the innermost mount just when their order of tests leads there.
theorem route_eq_iff (hi : TableInv vfs.mounts) (path : HostPath String) (routing : Routing) :
    vfs.route path routing = vfs.innermostRoute path ↔ vfs.Straight path routing := by
  have ⟨entry, h⟩ := exists_innermost hi path
  simp only [innermostRoute, Straight, h, Option.map_some]
  cases hb : entry.backend <;> simp only
  case root =>
    have ⟨hv, he, ht⟩ := backends_root hi h hb
    cases routing <;> simp [route, hv, he, ht, ext4LookupPath]
  case vfat volume =>
    have hv := mountedVfat_innermost hi h hb
    cases routing <;> simp [route, hv]
    split
    case h_1 => exact nofun
    case h_2 => split <;> exact nofun
  case tmpfs =>
    have ht := isTmpfsPath_innermost hi h hb
    cases routing
    case links =>
      simp only [route, ht, if_true, mountedExt4BackendPath]
      cases vfs.mountedExt4 path <;> simp
    all_goals
      simp only [route, ht, if_true, reduceCtorEq, if_false, ← mountedVfatBackend_none]
      cases vfs.mountedVfatBackend path <;> simp
  case ext4Root =>
    have he := mountedExt4_innermost hi h hb
    cases routing <;> simp only [route, he, ← mountedVfatBackend_none]
    all_goals
      cases vfs.mountedVfatBackend path <;> cases vfs.isTmpfsPath path <;> simp

-- What `metadata` finds.
theorem nodeAt_eq (vfs : Vfs V) (path : HostPath String) :
    vfs.nodeAt path = vfs.nodeIn (vfs.route path .translated) := by
  simp only [nodeAt, nodeIn, route, ext4LookupPath]
  cases hv : vfs.mountedVfatBackend path <;> simp only
  case none =>
    cases ht : vfs.isTmpfsPath path <;>
      simp only [Bool.true_or, Bool.false_or, if_true, Bool.false_eq_true, if_false]
    case true => cases vfs.mem path <;> rfl
    case false =>
      cases he : vfs.mountedExt4BackendPath path <;> simp
      cases vfs.mem path <;> simp

end Routes

section ReadOnly

theorem isReadonlyMountPath_root (hi : TableInv vfs.mounts) (h : vfs.innermost path = some entry)
    (hb : entry.hostTarget ≠ [] ∨ path = []) : vfs.isReadonlyMountPath path = entry.readonly := by
  have hc : entry.covers path := by
    have ⟨_, hp⟩ := innermost_mem h
    cases hb
    case inl hn => exact (pathIsUnder_iff hn).mpr hp
    case inr he =>
      subst he
      simp [MountEntry.covers, pathIsUnder, List.prefix_nil.mp hp]
  have hm : maxByKey MountEntry.depth (vfs.mounts.filter (·.covers path)) = some entry :=
    choose_innermost hi h (fun other _ => pathIsUnder_of_start) hc
  rw [isReadonlyMountPath, hm, Option.any_some]

-- The check is right for all paths but those that lie below a read-only root mount alone.
theorem not_readOnly (hi : TableInv vfs.mounts) (h : ¬vfs.isReadonlyMountPath path)
    (hr : ∀ entry, vfs.innermost path = some entry → entry.hostTarget = [] → entry.readonly → path = []) :
    ¬vfs.ReadOnly path := by
  intro ⟨entry, he, hro⟩
  have hb : entry.hostTarget ≠ [] ∨ path = [] := by
    by_cases ht : entry.hostTarget = []
    case pos => exact .inr (hr entry he ht hro)
    case neg => exact .inl ht
  exact h (isReadonlyMountPath_root hi he hb ▸ hro)

end ReadOnly

section Parent

-- A mount whose target is not the path itself covers the path if and only if it covers the parent.
theorem covers_parent (hn : ¬vfs.isMountpoint path) (hm : entry ∈ vfs.mounts) (ht : entry.hostTarget ≠ []) :
    entry.covers (parentPath path) = entry.covers path := by
  have hne : entry.hostTarget ≠ path := by
    intro he
    exact hn (List.any_eq_true.mpr ⟨entry, hm, by simp [he, he ▸ ht]⟩)
  rw [Bool.eq_iff_iff, MountEntry.covers, MountEntry.covers, pathIsUnder_iff ht, pathIsUnder_iff ht]
  constructor
  case mp => exact fun hp => hp.trans (List.dropLast_prefix _)
  case mpr =>
    intro hp
    cases path using List.reverseRecOn
    case nil => exact hp
    case append_singleton path c =>
      rw [parentPath, List.dropLast_concat]
      cases List.prefix_concat_iff.mp hp
      case inl he => exact absurd he hne
      case inr hp => exact hp

theorem choose_parent (hi : TableInv vfs.mounts) (hn : ¬vfs.isMountpoint path) {q : MountBackend V → Bool}
    (hq : q .root = false) :
    vfs.mounts.filter (fun entry => q entry.backend && entry.covers (parentPath path)) =
      vfs.mounts.filter fun entry => q entry.backend && entry.covers path := by
  refine List.filter_congr fun entry hm => ?_
  cases he : q entry.backend
  case false => rfl
  case true =>
    have ht : entry.hostTarget ≠ [] := by
      intro ht
      rw [(hi.backend entry hm).mpr ht, hq] at he
      cases he
    rw [covers_parent hn hm ht]

theorem mountedVfat_parent (hi : TableInv vfs.mounts) (hn : ¬vfs.isMountpoint path)
    (h : vfs.mountedVfatBackend (parentPath path) = none) : vfs.mountedVfatBackend path = none := by
  rw [mountedVfatBackend_none] at h ⊢
  rwa [mountedVfat, choose_parent hi hn (q := fun backend => backend.volume?.isSome) rfl] at h

theorem isTmpfsPath_parent (hi : TableInv vfs.mounts) (hn : ¬vfs.isMountpoint path)
    (hv : isMemfsVolatileDir path = isMemfsVolatileDir (parentPath path)) :
    vfs.isTmpfsPath (parentPath path) = vfs.isTmpfsPath path := by
  rw [isTmpfsPath, isTmpfsPath, hv]
  congr 1
  have hany (p : HostPath String) : (vfs.mounts.any fun entry => entry.backend.isTmpfs && entry.covers p) =
      !(vfs.mounts.filter fun entry => entry.backend.isTmpfs && entry.covers p).isEmpty := by
    rw [Bool.eq_iff_iff, List.any_eq_true, Bool.not_eq_true', List.isEmpty_eq_false_iff_exists_mem]
    simp only [List.mem_filter]
  rw [hany, hany, choose_parent hi hn rfl]

theorem mountedExt4_parent (hn : ¬vfs.isMountpoint path) :
    vfs.mountedExt4 (parentPath path) = vfs.mountedExt4 path := by
  rw [mountedExt4, mountedExt4]
  congr 1
  refine List.filter_congr fun entry hm => ?_
  cases ht : entry.hostTarget.isEmpty
  case true => simp
  case false => rw [covers_parent hn hm (List.isEmpty_eq_false_iff.mp ht)]

end Parent

section Failure

-- A mount that the memory file system is to hold, of a directory that is a mount target already.
def Busy (vfs : Vfs V) (request : MountRequest V) : Prop :=
  request.flags &&& ~~~(MS_RDONLY ||| MS_REMOUNT) = 0 ∧ request.flags &&& MS_REMOUNT = 0 ∧
    request.source.resolveMountBackend request.fstype = .ok .tmpfs ∧ vfs.checkMount request .tmpfs = .ok () ∧
    vfs.isMounted request.hostTarget

theorem mountFs_failed {fresh : HostPath String → Metadata} {request : MountRequest V} {e : SysErrNo}
    (h : (vfs.mountFs fresh request).1 = .error e) :
    (vfs.mountFs fresh request).2 = vfs ↔
      (vfs.Busy request → addDirWithMode fresh request.hostTarget 0o1777 vfs.mem = vfs.mem) := by
  simp only [Busy]
  unfold mountFs at h ⊢
  dsimp only at h ⊢
  split at h
  case isTrue hf =>
    rw [if_pos hf]
    exact ⟨fun _ hb => absurd hb.1 hf, fun _ => rfl⟩
  case isFalse hf =>
    rw [if_neg hf]
    split at h
    case isTrue hr =>
      rw [if_pos hr]
      split at h
      case h_1 => exact ⟨fun _ hb => absurd hb.2.1 hr, fun _ => rfl⟩
      case h_2 => cases h
    case isFalse hr =>
      rw [if_neg hr]
      split at h
      case h_1 hx => exact ⟨fun _ hb => (nomatch hx.symm.trans hb.2.2.1), fun _ => rfl⟩
      case h_2 backend hx =>
        split at h
        case h_1 hc =>
          refine ⟨fun _ hb => ?_, fun _ => rfl⟩
          cases hx.symm.trans hb.2.2.1
          cases hc.symm.trans hb.2.2.2.1
        case h_2 hc =>
          split at h
          case isFalse => cases h
          case isTrue hm =>
            rw [if_pos hm]
            cases backend
            case tmpfs =>
              simp only [MountBackend.isTmpfs, if_true]
              constructor
              case mp => exact fun he _ => congrArg Vfs.mem he
              case mpr =>
                intro hb
                rw [hb ⟨not_not.mp hf, not_not.mp hr, hx, hc, hm⟩]
            all_goals exact ⟨fun _ hb => (nomatch hx.symm.trans hb.2.2.1), fun _ => rfl⟩

theorem umountFs_failed {logicalTarget hostTarget : HostPath String} {flags : BitVec 64} {e : SysErrNo}
    (h : (vfs.umountFs logicalTarget hostTarget flags).1 = .error e) :
    (vfs.umountFs logicalTarget hostTarget flags).2 = vfs := by
  unfold umountFs at h ⊢
  split
  case isTrue => rfl
  case isFalse hf =>
    rw [if_neg hf] at h
    split at h
    case h_1 => rfl
    case h_2 =>
      split at h
      case isTrue hl => rw [if_pos hl]
      case isFalse => cases h

end Failure

end Vfs

end WllOs.Fs
