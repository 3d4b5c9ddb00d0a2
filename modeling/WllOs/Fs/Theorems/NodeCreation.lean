import WllOs.Fs.NodeCreation
import WllOs.Fs.Theorems.VfsCalls

namespace WllOs.Fs

open Lists

variable {path directory : HostPath String} {name : String}

theorem pathIsUnder_concat {parent : HostPath String} (hp : parent ≠ []) :
    pathIsUnder (directory ++ [name]) parent ↔ pathIsUnder directory parent ∨ directory ++ [name] = parent := by
  rw [Vfs.pathIsUnder_iff hp, Vfs.pathIsUnder_iff hp, List.prefix_concat_iff, or_comm, eq_comm]

theorem isMemfsVolatileDir_concat (h : isMemfsVolatileDir directory) : isMemfsVolatileDir (directory ++ [name]) := by
  have hbelow {start tail : List String} (h : start.isPrefixOf tail) : start.isPrefixOf (tail ++ [name]) := by
    rw [List.isPrefixOf_iff_prefix] at h ⊢
    exact h.trans (List.prefix_append _ _)
  have hor {tail : List String}
      (h : ["tmp"].isPrefixOf tail || ["var", "tmp"].isPrefixOf tail || ["dev", "shm"].isPrefixOf tail) :
      ["tmp"].isPrefixOf (tail ++ [name]) || ["var", "tmp"].isPrefixOf (tail ++ [name]) ||
        ["dev", "shm"].isPrefixOf (tail ++ [name]) := by
    simp only [Bool.or_eq_true] at h ⊢
    exact h.imp (.imp hbelow hbelow) hbelow
  cases directory
  case nil => cases h
  case cons head tail =>
    simp only [isMemfsVolatileDir, List.cons_append] at h ⊢
    split at h
    case h_1 tail' he =>
      cases he
      exact hor h
    case h_2 tail' he =>
      cases he
      exact hor h
    case h_3 hm hg =>
      split
      case h_1 he => exact (hm tail (by rw [(List.cons.inj he).left])).elim
      case h_2 he => exact (hg tail (by rw [(List.cons.inj he).left])).elim
      case h_3 => exact hor h

namespace NodeTree

variable {V : Type} {tree : NodeTree V}

section Mounts

theorem Closed.target_ne_nil (hc : tree.Closed) {entry : MountEntry V} (hm : entry ∈ tree.mounts)
    (hb : entry.backend ≠ .root) : entry.hostTarget ≠ [] :=
  fun ht => hb (hc.mounts entry hm ht)

theorem Closed.covers_concat (hc : tree.Closed) {entry : MountEntry V} (hm : entry ∈ tree.mounts)
    (hb : entry.backend ≠ .root) :
    entry.covers (directory ++ [name]) ↔ entry.covers directory ∨ directory ++ [name] = entry.hostTarget :=
  pathIsUnder_concat (hc.target_ne_nil hm hb)

theorem Closed.isTmpfsPath_concat (hc : tree.Closed) (h : tree.isTmpfsPath directory) :
    tree.isTmpfsPath (directory ++ [name]) := by
  simp only [Vfs.isTmpfsPath, Bool.or_eq_true, List.any_eq_true, Bool.and_eq_true] at h ⊢
  cases h
  case inl h => exact .inl (isMemfsVolatileDir_concat h)
  case inr h =>
    obtain ⟨entry, hm, ht, hcov⟩ := h
    have hb : entry.backend ≠ .root := fun hb => by simp [hb, MountBackend.isTmpfs] at ht
    exact .inr ⟨entry, hm, ht, (hc.covers_concat hm hb).mpr (.inl hcov)⟩

theorem Closed.mountedVfat_concat (hc : tree.Closed) (h : tree.mountedVfatBackend (directory ++ [name]) = none) :
    tree.mountedVfatBackend directory = none := by
  rw [Vfs.mountedVfatBackend_none, Vfs.mountedVfat, maxByKey_eq_none, List.filter_eq_nil_iff] at h ⊢
  intro entry hm hp
  simp only [Bool.and_eq_true] at hp
  have hb : entry.backend ≠ .root := fun hb => by simp [hb, MountBackend.volume?] at hp
  exact h entry hm (by simp only [Bool.and_eq_true]; exact ⟨hp.left, (hc.covers_concat hm hb).mpr (.inl hp.right)⟩)

theorem Closed.mountedVfat_prefix (hc : tree.Closed) (h : tree.mountedVfatBackend path = none)
    (hp : directory <+: path) : tree.mountedVfatBackend directory = none := by
  have ⟨rest, he⟩ := hp
  subst he
  induction rest using List.reverseRecOn
  case nil => simpa using h
  case append_singleton rest name hi =>
    rw [← List.append_assoc] at h
    exact hi (hc.mountedVfat_concat h) (List.prefix_append _ _)

-- Below the target of a mount, the path on the volume goes on with the name.
theorem ext4LookupPath_concat (h : tree.ext4LookupPath (directory ++ [name]) ≠ []) :
    tree.ext4LookupPath (directory ++ [name]) = tree.ext4LookupPath directory ++ [name] := by
  have htarget (entry : MountEntry V) (hm : entry ∈ tree.mounts) (hb : entry.backend.isExt4)
      (hn : entry.hostTarget ≠ []) : directory ++ [name] ≠ entry.hostTarget := by
    intro he
    have hmem : entry ∈ tree.mounts.filter fun entry =>
        entry.backend.isExt4 && !entry.hostTarget.isEmpty && entry.covers (directory ++ [name]) := by
      rw [List.mem_filter]
      simp [hm, hb, hn, MountEntry.covers, pathIsUnder, he]
    obtain ⟨inner, hinner⟩ := @maxByKey_isSome _ _ _ MountEntry.depth hmem
    have hle := le_of_maxByKey hinner hmem
    apply h
    rw [Vfs.ext4LookupPath, Vfs.mountedExt4BackendPath, Vfs.mountedExt4, hinner]
    simp only [Option.map_some, Option.getD_some, MountEntry.backendPath]
    exact List.drop_eq_nil_of_le (by rw [he]; exact hle)
  have hfilter : tree.mountedExt4 (directory ++ [name]) = tree.mountedExt4 directory := by
    rw [Vfs.mountedExt4, Vfs.mountedExt4]
    congr 1
    refine List.filter_congr fun entry hm => ?_
    rw [Bool.eq_iff_iff]
    simp only [Bool.and_eq_true, Bool.not_eq_true', List.isEmpty_eq_false_iff]
    refine and_congr_right fun hb => ?_
    rw [MountEntry.covers, MountEntry.covers, pathIsUnder_concat hb.right,
      or_iff_left (htarget entry hm hb.left hb.right)]
  simp only [Vfs.ext4LookupPath, Vfs.mountedExt4BackendPath, hfilter]
  cases hm : tree.mountedExt4 directory
  case none => rfl
  case some entry =>
    have hcov := (List.mem_filter.mp (maxByKey_mem hm)).right
    simp only [Bool.and_eq_true] at hcov
    have hle := (Vfs.pathIsUnder_of_start hcov.right).length_le
    exact List.drop_append_of_le_length hle

theorem ext4LookupPath_of_consultsMem (h : tree.consultsMem path) (ht : tree.isTmpfsPath path = false) :
    tree.ext4LookupPath path = path := by
  rw [consultsMem, ht, Bool.false_or, Option.isNone_iff_eq_none] at h
  rw [Vfs.ext4LookupPath, h]
  rfl

end Mounts

section Found

variable {place : Place V} {node : Node String} {disk : HostPath String}

theorem found_memory_iff {p : HostPath String} : tree.found path = some (.memory p, node) ↔
    tree.removed path = false ∧ p = path ∧ tree.mountedVfatBackend path = none ∧ tree.consultsMem path ∧
      tree.mem path = some node := by
  simp only [found]
  cases hr : tree.removed path <;> cases hv : tree.mountedVfatBackend path <;> cases hcons : tree.consultsMem path <;>
    cases hm : tree.mem path <;> cases ht : tree.isTmpfsPath path <;> simp [eq_comm]

theorem found_vfat_iff {volume : V} {p : HostPath String} : tree.found path = some (.vfat volume p, node) ↔
    tree.removed path = false ∧ tree.mountedVfatBackend path = some (volume, p) ∧
      tree.volume volume p = .ok node := by
  simp only [found]
  cases tree.removed path
  case true => simp
  case false =>
    cases hv : tree.mountedVfatBackend path
    case none =>
      cases hcons : tree.consultsMem path <;> cases hm : tree.mem path <;> cases ht : tree.isTmpfsPath path <;> simp
    case some mounted =>
      have ⟨volume', p'⟩ := mounted
      simp only [Bool.false_eq_true, if_false, Option.map_eq_some_iff, Prod.mk.injEq, Place.vfat.injEq,
        Option.some.injEq, true_and]
      constructor
      case mp =>
        rintro ⟨node', hn, ⟨rfl, rfl⟩, rfl⟩
        refine ⟨⟨rfl, rfl⟩, ?_⟩
        cases hvol : tree.volume volume' p' <;> rw [hvol] at hn <;> cases hn
        rfl
      case mpr =>
        rintro ⟨⟨rfl, rfl⟩, hvol⟩
        exact ⟨node, by rw [hvol]; rfl, ⟨rfl, rfl⟩, rfl⟩

theorem found_ext4_iff : tree.found path = some (.ext4 disk, node) ↔
    tree.removed path = false ∧ tree.Reads path disk ∧ tree.disk disk = some node := by
  have hdisk : (tree.disk (tree.ext4LookupPath path)).map
      ((.ext4 (tree.ext4LookupPath path), ·) : Node String → Place V × Node String) = some (.ext4 disk, node) ↔ tree.ext4LookupPath path = disk ∧ tree.disk disk = some node := by
    simp only [Option.map_eq_some_iff, Prod.mk.injEq, Place.ext4.injEq]
    exact ⟨fun ⟨_, hn, he, hnode⟩ => ⟨he, he ▸ hnode ▸ hn⟩, fun ⟨he, hn⟩ => ⟨node, he ▸ hn, he, rfl⟩⟩
  simp only [found, Reads]
  cases hr : tree.removed path <;> cases hv : tree.mountedVfatBackend path <;> cases hcons : tree.consultsMem path <;>
    cases hm : tree.mem path <;> cases ht : tree.isTmpfsPath path <;> simp [hdisk]

end Found

-- Nothing is mounted or unmounted, and the vfat volumes stay as they are.
structure Frame (tree tree' : NodeTree V) : Prop where
  mounts     : tree'.mounts = tree.mounts
  volume     : tree'.volume = tree.volume
  volumeData : tree'.volumeData = tree.volumeData
  volumeList : tree'.volumeList = tree.volumeList

namespace Frame

variable {tree' : NodeTree V} {node : Node String} {disk : HostPath String}

theorem isTmpfsPath (hf : Frame tree tree') : tree'.isTmpfsPath path = tree.isTmpfsPath path := by
  rw [Vfs.isTmpfsPath, Vfs.isTmpfsPath, hf.mounts]

theorem mountedVfat (hf : Frame tree tree') : tree'.mountedVfatBackend path = tree.mountedVfatBackend path := by
  rw [Vfs.mountedVfatBackend, Vfs.mountedVfatBackend, Vfs.mountedVfat, Vfs.mountedVfat, hf.mounts]

theorem mountedExt4 (hf : Frame tree tree') :
    tree'.mountedExt4BackendPath path = tree.mountedExt4BackendPath path := by
  rw [Vfs.mountedExt4BackendPath, Vfs.mountedExt4BackendPath, Vfs.mountedExt4, Vfs.mountedExt4, hf.mounts]

theorem ext4LookupPath (hf : Frame tree tree') : tree'.ext4LookupPath path = tree.ext4LookupPath path := by
  rw [Vfs.ext4LookupPath, Vfs.ext4LookupPath, hf.mountedExt4]

theorem consultsMem (hf : Frame tree tree') : tree'.consultsMem path = tree.consultsMem path := by
  rw [NodeTree.consultsMem, NodeTree.consultsMem, hf.isTmpfsPath, hf.mountedExt4]

theorem reads (hf : Frame tree tree') (hm : tree.consultsMem path → (tree'.mem path = none ↔ tree.mem path = none)) :
    tree'.Reads path disk ↔ tree.Reads path disk := by
  simp only [Reads, hf.mountedVfat, hf.isTmpfsPath, hf.ext4LookupPath, hf.consultsMem]
  exact and_congr_right fun _ => and_congr_right fun _ => and_congr_right fun _ => forall_congr' hm

theorem dataAt {site : Place V} (hf : Frame tree tree') (h : tree.found path = some (site, node))
    (hm : tree.consultsMem path → tree'.memData path = tree.memData path)
    (hd : ∀ disk, tree.removed path = false → tree.Reads path disk → tree'.ext4Data disk = tree.ext4Data disk) :
    tree'.dataAt site = tree.dataAt site := by
  cases site
  case memory =>
    have ⟨_, he, _, hcons, _⟩ := found_memory_iff.mp h
    subst he
    exact hm hcons
  case ext4 =>
    have ⟨hr, hreads, _⟩ := found_ext4_iff.mp h
    exact hd _ hr hreads
  case vfat => rw [NodeTree.dataAt, NodeTree.dataAt, hf.volumeData]

-- What is seen at a path stays where neither of the nodes that the path may lead to has been touched.
theorem seen (hf : Frame tree tree') (hr : tree'.removed path = tree.removed path)
    (hm : tree.consultsMem path → tree'.mem path = tree.mem path ∧ tree'.memData path = tree.memData path)
    (hd : ∀ disk, tree.removed path = false → tree.Reads path disk →
      tree'.disk disk = tree.disk disk ∧ tree'.ext4Data disk = tree.ext4Data disk) :
    tree'.seen path = tree.seen path := by
  have hreads {disk : HostPath String} : tree'.Reads path disk ↔ tree.Reads path disk :=
    hf.reads fun hcons => by rw [(hm hcons).left]
  have hfound : tree'.found path = tree.found path := by
    refine Option.ext fun (site, node) => ?_
    cases site
    case memory =>
      rw [found_memory_iff, found_memory_iff, hr, hf.mountedVfat, hf.consultsMem]
      refine and_congr_right fun _ => and_congr_right fun _ => and_congr_right fun _ => and_congr_right fun hcons => ?_
      rw [(hm hcons).left]
    case ext4 =>
      rw [found_ext4_iff, found_ext4_iff, hr, hreads]
      exact and_congr_right fun hr => and_congr_right fun hreads => by rw [(hd _ hr hreads).left]
    case vfat => rw [found_vfat_iff, found_vfat_iff, hr, hf.mountedVfat, hf.volume]
  rw [NodeTree.seen, NodeTree.seen, hfound]
  refine Option.map_congr fun (site, node) h => ?_
  exact Prod.ext rfl (hf.dataAt h (fun hcons => (hm hcons).right) fun disk hr hreads => (hd disk hr hreads).right)

end Frame

section Listing

-- In a closed tree, the entries of a directory are the children of its path.
theorem Closed.lists_eq (hc : tree.Closed) (hv : tree.mountedVfatBackend path = none) :
    tree.lists path name =
      (if tree.consultsMem path then (tree.mem (path ++ [name])).map Node.isDirectory else none).or
        (if !tree.isTmpfsPath path && !tree.removed (tree.ext4LookupPath path ++ [name]) then
          (tree.disk (tree.ext4LookupPath path ++ [name])).map Node.isDirectory
        else none) := by
  have hmem (h : tree.memIsDir path = false) : tree.mem (path ++ [name]) = none := by
    cases hm : tree.mem (path ++ [name])
    case none => rfl
    case some => exact absurd (hc.mem path name (by simp [hm])) (by simp [h])
  have hdisk (h : tree.ext4DirExists (tree.ext4LookupPath path) = false) :
      tree.disk (tree.ext4LookupPath path ++ [name]) = none := by
    cases hd : tree.disk (tree.ext4LookupPath path ++ [name])
    case none => rfl
    case some => exact absurd (hc.disk (tree.ext4LookupPath path) name (by simp [hd])) (by simp [h])
  simp only [lists, listDir, hv]
  split
  case isTrue h =>
    simp only [Bool.and_eq_true, Bool.not_eq_true', Bool.and_eq_false_iff] at h
    have hnone (entry : Except SysErrNo (String → Option Bool)) (he : ∀ listing, entry ≠ .ok listing) :
        entry.toOption.bind (· name) = none := by
      cases entry
      case error => rfl
      case ok listing => exact absurd rfl (he listing)
    rw [hnone _ (by intro listing; split <;> [exact nofun; (split <;> exact nofun)])]
    cases hcons : tree.consultsMem path <;> cases ht : tree.isTmpfsPath path <;> simp_all
  case isFalse =>
    cases hcons : tree.consultsMem path <;> cases hm : tree.memIsDir path <;> cases ht : tree.isTmpfsPath path <;>
      cases hd : tree.ext4DirExists (tree.ext4LookupPath path) <;> simp_all [Except.toOption]

end Listing

section Ensured

variable {creator : Creator} {ancestor : HostPath String} {node : Node String} {data : NodeData}

theorem memIsDir_iff : tree.memIsDir path ↔ ∃ metadata, tree.mem path = some (.directory metadata) := by
  simp only [Vfs.memIsDir, Option.any_eq_true]
  constructor
  case mp =>
    rintro ⟨node, hn, hd⟩
    cases node <;> first | exact ⟨_, hn⟩ | cases hd
  case mpr => exact fun ⟨_, hn⟩ => ⟨_, hn, rfl⟩

theorem Closed.memIsDir_prefix (hc : tree.Closed) (h : tree.memIsDir path) (ha : ancestor <+: path) :
    tree.memIsDir ancestor := by
  have ⟨rest, he⟩ := ha
  subst he
  induction rest using List.reverseRecOn
  case nil => simpa using h
  case append_singleton rest name hi =>
    rw [← List.append_assoc] at h
    have ⟨_, hm⟩ := memIsDir_iff.mp h
    exact hi (hc.mem _ name (by rw [hm]; exact Option.some_ne_none _)) (List.prefix_append _ _)

theorem isEnsured_iff : isEnsured path ancestor ↔ ancestor ≠ [] ∧ ancestor <+: Vfs.ensuredParents path := by
  simp [isEnsured]

theorem ensuredParents_prefix : Vfs.ensuredParents path <+: parentPath path := by
  induction path using List.reverseRecOn
  case nil => exact List.prefix_refl _
  case append_singleton rest name _ =>
    rw [Vfs.ensuredParents, parentPath, List.dropLast_concat, List.takeWhile_append]
    split
    case isTrue h =>
      simp
    case isFalse => exact List.takeWhile_prefix _

theorem prefix_of_isEnsured (h : isEnsured path ancestor) : ancestor <+: parentPath path :=
  (isEnsured_iff.mp h).right.trans ensuredParents_prefix

theorem ne_of_isEnsured (h : isEnsured path ancestor) : ancestor ≠ path := by
  intro he
  subst he
  have hlen := (prefix_of_isEnsured h).length_le
  have hpos := List.length_pos_iff.mpr (isEnsured_iff.mp h).left
  rw [parentPath, List.length_dropLast] at hlen
  omega

theorem isEnsured_of_concat (h : isEnsured path (ancestor ++ [name])) : ancestor = [] ∨ isEnsured path ancestor := by
  rw [or_iff_not_imp_left]
  exact fun hn => isEnsured_iff.mpr ⟨hn, (List.prefix_append _ _).trans (isEnsured_iff.mp h).right⟩

theorem ensured_isDirectory : (tree.ensured creator path).fst.isDirectory := by
  rw [ensured]
  split <;> rfl

-- A directory that is there is kept.
theorem ensured_of_memIsDir (h : tree.memIsDir path) :
    tree.mem path = some (tree.ensured creator path).fst ∧ (tree.ensured creator path).snd = tree.memData path := by
  have ⟨metadata, hm⟩ := memIsDir_iff.mp h
  simp [ensured, hm]

theorem Closed.ensureParentDirs_eq (hc : tree.Closed) (h : tree.memIsDir (parentPath path)) :
    tree.ensureParentDirs creator path = tree := by
  have hdir {ancestor : HostPath String} (he : isEnsured path ancestor) :=
    @ensured_of_memIsDir _ _ _ creator (hc.memIsDir_prefix h (prefix_of_isEnsured he))
  have hmem : (tree.ensureParentDirs creator path).mem = tree.mem := by
    funext ancestor
    simp only [ensureParentDirs]
    split
    case isTrue he => exact (hdir he).left.symm
    case isFalse => rfl
  have hdata : (tree.ensureParentDirs creator path).memData = tree.memData := by
    funext ancestor
    simp only [ensureParentDirs]
    split
    case isTrue he => exact (hdir he).right
    case isFalse => rfl
  have hrest : tree.ensureParentDirs creator path = { tree with
      mem := (tree.ensureParentDirs creator path).mem
      memData := (tree.ensureParentDirs creator path).memData } := rfl
  rw [hrest, hmem, hdata]

end Ensured

theorem found_eq_none : tree.found path = none ↔ tree.seen path = none := by
  rw [seen, Option.map_eq_none_iff]

theorem isDirectory_iff :
    tree.IsDirectory path ↔ ∃ metadata data, tree.seen path = some (.directory metadata, data) := by
  simp only [IsDirectory, seen, Option.map_eq_some_iff, Prod.mk.injEq]
  constructor
  case mp => exact fun ⟨site, metadata, hf⟩ => ⟨metadata, _, _, hf, rfl, rfl⟩
  case mpr => exact fun ⟨metadata, _, (site, _), hf, he, _⟩ => ⟨site, metadata, by rw [hf, ← he]⟩

theorem Frame.lists_vfat {tree' : NodeTree V} (hf : Frame tree tree') (h : tree.mountedVfatBackend path ≠ none) :
    tree'.lists path name = tree.lists path name := by
  simp only [lists, listDir, hf.mountedVfat]
  split
  case h_1 => rw [hf.volumeList]
  case h_2 hn => exact absurd hn h

-- A node is put into memory, below directories that are added where there are none.
structure PutInMemory (creator : Creator) (tree : NodeTree V) (path : HostPath String) (kind : NodeKind)
    (node : Node String) (tree' : NodeTree V) : Prop where
  frame    : Frame tree tree'
  removed  : ∀ p, tree'.removed p = (tree.removed p && p ≠ path)
  new      : tree'.mem path = some node
  mem      : ∀ p, p ≠ path → tree'.mem p = if isEnsured path p then some (tree.ensured creator p).fst else tree.mem p
  memData  : ∀ p, p ≠ path →
    tree'.memData p = if isEnsured path p then (tree.ensured creator p).snd else tree.memData p
  disk     : tree'.disk = tree.disk
  ext4Data : tree'.ext4Data = tree.ext4Data
  parent   : path ≠ [] → tree'.memIsDir (parentPath path)
  kept     : tree.memIsDir path → node.isDirectory
  kind     : node.kind = kind ↔ ¬(kind = .regular ∧ tree.memIsDir path)

namespace PutInMemory

variable {creator : Creator} {kind : NodeKind} {node : Node String} {tree' : NodeTree V} {p : HostPath String}

theorem memIsDir_new (h : PutInMemory creator tree path kind node tree') (hd : node.isDirectory) :
    tree'.memIsDir path := by
  rw [Vfs.memIsDir, h.new]
  exact hd

theorem memIsDir_ensured (h : PutInMemory creator tree path kind node tree') (he : isEnsured path p) :
    tree'.memIsDir p := by
  rw [Vfs.memIsDir, h.mem p (ne_of_isEnsured he), if_pos he]
  exact ensured_isDirectory

-- What is a directory in memory stays one.
theorem memIsDir (h : PutInMemory creator tree path kind node tree') (hd : tree.memIsDir p) : tree'.memIsDir p := by
  by_cases hp : p = path
  case pos =>
    subst hp
    exact h.memIsDir_new (h.kept hd)
  case neg =>
    by_cases he : isEnsured path p
    case pos => exact h.memIsDir_ensured he
    case neg =>
      rw [Vfs.memIsDir, h.mem p hp, if_neg he]
      exact hd

theorem closed (h : PutInMemory creator tree path kind node tree') (hc : tree.Closed) : tree'.Closed where
  root := h.memIsDir hc.root
  mem directory name hm := by
    by_cases hp : directory ++ [name] = path
    case pos =>
      subst hp
      simpa [parentPath] using h.parent (List.concat_ne_nil _ _)
    case neg =>
      rw [h.mem _ hp] at hm
      split at hm
      case isTrue he =>
        rcases isEnsured_of_concat he with hn | he
        case inl =>
          subst hn
          exact h.memIsDir hc.root
        case inr => exact h.memIsDir_ensured he
      case isFalse => exact h.memIsDir (hc.mem directory name hm)
  disk directory name hd := by
    rw [Vfs.ext4DirExists, h.disk]
    exact hc.disk directory name (h.disk ▸ hd)
  mounts entry hm := hc.mounts entry (h.frame.mounts ▸ hm)

theorem mem_eq (h : PutInMemory creator tree path kind node tree') (hp : p ≠ path)
    (he : isEnsured path p → tree.memIsDir p) : tree'.mem p = tree.mem p ∧ tree'.memData p = tree.memData p := by
  rw [h.mem p hp, h.memData p hp]
  split
  case isTrue hens =>
    have hdir := @ensured_of_memIsDir _ _ _ creator (he hens)
    exact ⟨hdir.left.symm, hdir.right⟩
  case isFalse => exact ⟨rfl, rfl⟩

theorem removed_eq (h : PutInMemory creator tree path kind node tree') (hp : p ≠ path) :
    tree'.removed p = tree.removed p := by
  rw [h.removed, decide_eq_true hp, Bool.and_true]

theorem removed_new (h : PutInMemory creator tree path kind node tree') : tree'.removed path = false := by
  rw [h.removed, decide_eq_false (fun hn => hn rfl), Bool.and_false]

-- The entries of a directory, before and after.
theorem lists_eq (h : PutInMemory creator tree path kind node tree') (hc : tree.Closed)
    (hv : tree.mountedVfatBackend p = none) :
    tree'.lists p name =
      (if tree.consultsMem p then (tree'.mem (p ++ [name])).map Node.isDirectory else none).or
        (if !tree.isTmpfsPath p && !tree'.removed (tree.ext4LookupPath p ++ [name]) then
          (tree.disk (tree.ext4LookupPath p ++ [name])).map Node.isDirectory
        else none) := by
  rw [(h.closed hc).lists_eq (h.frame.mountedVfat.trans hv), h.frame.consultsMem, h.frame.isTmpfsPath,
    h.frame.ext4LookupPath, h.disk]

theorem found_new_iff (h : PutInMemory creator tree path kind node tree') :
    (∃ node', tree'.found path = some (.memory path, node') ∧ node'.kind = kind) ↔
      tree.LeadsTo path (.memory path) ∧ ¬(kind = .regular ∧ tree.memIsDir path) := by
  simp only [found_memory_iff, h.removed_new, h.frame.mountedVfat, h.frame.consultsMem, h.new, LeadsTo, ← h.kind]
  constructor
  case mp =>
    rintro ⟨node', ⟨_, _, hv, hcons, he⟩, hk⟩
    cases he
    exact ⟨⟨hv, hcons⟩, hk⟩
  case mpr => exact fun ⟨⟨hv, hcons⟩, hk⟩ => ⟨node, ⟨trivial, trivial, hv, hcons, rfl⟩, hk⟩

theorem listed_iff (h : PutInMemory creator tree path kind node tree') (hc : tree.Closed)
    (hv : tree.mountedVfatBackend p = none) (hp : path = p ++ [name]) :
    tree'.lists p name ≠ none ↔ tree.EntryShown path p name (.memory path) := by
  rw [h.lists_eq hc hv, ← hp, h.new, EntryShown]
  have htmpfs (hcons : tree.consultsMem p = false) : tree.isTmpfsPath p = false := by
    rw [consultsMem, Bool.or_eq_false_iff] at hcons
    exact hcons.left
  cases hcons : tree.consultsMem p
  case true => simp
  case false =>
    rw [htmpfs hcons, h.removed]
    cases hr : tree.removed (tree.ext4LookupPath p ++ [name]) <;>
      cases hd : tree.disk (tree.ext4LookupPath p ++ [name]) <;> simp

-- A directory that memory is given on the way shows what the directory of the volume shows.
theorem seen_ensured (h : PutInMemory creator tree path kind node tree') (hr : tree.removed p = false)
    (hv : tree.mountedVfatBackend p = none) (hcons : tree.consultsMem p) (ht : tree.isTmpfsPath p = false)
    (he : isEnsured path p) (hm : tree.mem p = none) :
    tree'.seen p = tree.seen p ↔ (tree.disk p).map (·, tree.ext4Data p) = some (tree.ensured creator p) := by
  have hext := ext4LookupPath_of_consultsMem hcons ht
  have hnew : tree'.seen p = some (tree.ensured creator p) := by
    have hf : tree'.found p = some (.memory p, (tree.ensured creator p).fst) := by
      rw [found_memory_iff, h.removed_eq (ne_of_isEnsured he), h.frame.mountedVfat, h.frame.consultsMem,
        h.mem p (ne_of_isEnsured he), if_pos he]
      exact ⟨hr, rfl, hv, hcons, rfl⟩
    simp only [seen, hf, Option.map_some, dataAt]
    rw [h.memData p (ne_of_isEnsured he), if_pos he]
  have hold : tree.seen p = (tree.disk p).map (·, tree.ext4Data p) := by
    simp only [seen, found, hr, hv, hcons, ht, hm, hext, Bool.false_eq_true, if_false, if_true, Option.map_map]
    rfl
  rw [hnew, hold, eq_comm]

-- A directory that is not in memory where memory is asked is on the volume.
theorem of_isDirectory (hd : ¬tree.memIsDir p) (hv : tree.mountedVfatBackend p = none) (hcons : tree.consultsMem p)
    (hdir : tree.IsDirectory p) : tree.removed p = false ∧ tree.isTmpfsPath p = false ∧ tree.mem p = none := by
  have ⟨site, metadata, hf⟩ := hdir
  cases site
  case memory =>
    have ⟨_, _, _, _, hm⟩ := found_memory_iff.mp hf
    exact absurd (memIsDir_iff.mpr ⟨metadata, hm⟩) hd
  case ext4 =>
    have ⟨hr, ⟨_, ht, _, hm⟩, _⟩ := found_ext4_iff.mp hf
    exact ⟨hr, ht, hm hcons⟩
  case vfat => cases hv.symm.trans (found_vfat_iff.mp hf).right.left

theorem isDirectory_of_seen (hs : tree'.seen p = tree.seen p) : tree'.IsDirectory p ↔ tree.IsDirectory p := by
  rw [isDirectory_iff, isDirectory_iff, hs]

-- A path of the volume of which the whiteout has been cleared is hidden from no listing any more.
theorem lists_ne (h : PutInMemory creator tree path kind node tree') (hc : tree.Closed)
    (hv : tree.mountedVfatBackend p = none) (ht : tree.isTmpfsPath p = false) (hn : p ++ [name] ≠ path)
    (he : tree.ext4LookupPath p ++ [name] = path) (hr : tree.removed path) (hd : tree.disk path ≠ none) :
    tree'.lists p name ≠ tree.lists p name := by
  have hcons : tree.consultsMem p = false := by
    cases hcons : tree.consultsMem p
    case false => rfl
    case true => exact absurd (ext4LookupPath_of_consultsMem hcons ht ▸ he) hn
  have ⟨node', hd⟩ := Option.ne_none_iff_exists'.mp hd
  rw [h.lists_eq hc hv, hc.lists_eq hv, he, hcons, ht, h.removed_new, hr, hd]
  simp

-- The entry of a directory that memory is given below one.
theorem lists_ensured (h : PutInMemory creator tree path kind node tree') (hc : tree.Closed)
    (hv : tree.mountedVfatBackend p = none) (hcons : tree.consultsMem p) (he : isEnsured path (p ++ [name]))
    (hd : ¬tree.memIsDir (p ++ [name])) : tree'.lists p name = tree.lists p name ↔
      tree.isTmpfsPath p = false ∧ tree.mem (p ++ [name]) = none ∧ tree.removed (p ++ [name]) = false ∧
        tree.ext4DirExists (p ++ [name]) := by
  have hnew : tree'.lists p name = some true := by
    rw [h.lists_eq hc hv, if_pos hcons, h.mem _ (ne_of_isEnsured he), if_pos he, Option.map_some, ensured_isDirectory]
    rfl
  rw [hnew, hc.lists_eq hv, if_pos hcons]
  cases hm : tree.mem (p ++ [name])
  case some node' =>
    have hfalse : node'.isDirectory = false := by simpa [Vfs.memIsDir, hm] using hd
    simp [hfalse]
  case none =>
    cases ht : tree.isTmpfsPath p
    case true => simp
    case false =>
      rw [ext4LookupPath_of_consultsMem hcons ht, Vfs.ext4DirExists]
      cases hr : tree.removed (p ++ [name])
      case true => simp
      case false =>
        cases hdisk : tree.disk (p ++ [name])
        case none => simp
        case some node' => cases hdir : node'.isDirectory <;> simp [hdir]

-- All other entries.
theorem lists_other (h : PutInMemory creator tree path kind node tree') (hc : tree.Closed)
    (hv : tree.mountedVfatBackend p = none) (hn : p ++ [name] ≠ path)
    (hm : tree.consultsMem p → isEnsured path (p ++ [name]) → tree.memIsDir (p ++ [name]))
    (he : tree.ReadsEntry p name path → tree.removed path → tree.disk path = none) :
    tree'.lists p name = tree.lists p name := by
  have hmem : (if tree.consultsMem p then (tree'.mem (p ++ [name])).map Node.isDirectory else none) =
      if tree.consultsMem p then (tree.mem (p ++ [name])).map Node.isDirectory else none := by
    split
    case isTrue hcons => rw [(h.mem_eq hn (hm hcons)).left]
    case isFalse => rfl
  rw [h.lists_eq hc hv, hc.lists_eq hv, hmem]
  by_cases hpath : tree.ext4LookupPath p ++ [name] = path
  case neg => rw [h.removed_eq hpath]
  case pos =>
    rw [hpath, h.removed_new]
    cases hr : tree.removed path
    case false => rfl
    case true =>
      cases ht : tree.isTmpfsPath p
      case true => rfl
      case false =>
        by_cases hshown : tree.consultsMem p ∧ tree.mem (p ++ [name]) ≠ none
        case pos =>
          have ⟨node', hm⟩ := Option.ne_none_iff_exists'.mp hshown.right
          simp [hshown.left, hm]
        case neg => rw [he ⟨hv, ht, hpath, hshown⟩ hr]; rfl

theorem creates_of_nodeAdded (h : PutInMemory creator tree path kind node tree') (hc : tree.Closed)
    (ha : tree.NodeAdded path (.memory path) kind tree') : tree.Creates creator path (.memory path) kind := by
  have ⟨hleads, hkept⟩ := h.found_new_iff.mp ha.found
  have hbelow {ancestor : HostPath String} (hp : ancestor <+: path) : tree.mountedVfatBackend ancestor = none :=
    hc.mountedVfat_prefix hleads.left hp
  have hancestors (ancestor : HostPath String) (hp : ancestor <+: path) (hn : ancestor ≠ path) :
      tree.IsDirectory ancestor :=
    (isDirectory_of_seen (ha.others ancestor hn)).mp (ha.ancestors ancestor hp hn)
  have hensured {ancestor : HostPath String} (he : isEnsured path ancestor) : ancestor <+: path :=
    (prefix_of_isEnsured he).trans (List.dropLast_prefix path)
  exact {
    new := ha.new
    leads := hleads
    kept := fun _ hk hd => hkept ⟨hk, hd⟩
    shown := fun directory name hp =>
      (h.listed_iff hc (hbelow (hp ▸ List.prefix_append _ _)) hp).mp (ha.listed directory name hp)
    ancestors := hancestors
    alone := fun _ _ _ he => by cases he
    entries := by
      rintro other name disk hn hne hdir ⟨hv, ht, rfl, _⟩ ⟨he, hr, hd⟩
      exact h.lists_ne hc hv ht hne he (he ▸ hr) (he ▸ hd) (ha.lists other name hn hne hdir)
    parents := by
      intro _ ancestor he hd hcons
      have hn := ne_of_isEnsured he
      have hv := hbelow (hensured he)
      have ⟨hr, ht, hm⟩ := of_isDirectory hd hv hcons (hancestors ancestor (hensured he) hn)
      exact (h.seen_ensured hr hv hcons ht he hm).mp (ha.others ancestor hn)
    entered := by
      intro _ ancestor he hd hcons
      induction ancestor using List.reverseRecOn
      case nil => exact absurd rfl (isEnsured_iff.mp he).left
      case append_singleton parent name _ =>
        rw [parentPath, List.dropLast_concat] at hcons
        have hp : parent <+: path := (List.prefix_append _ _).trans (hensured he)
        have hn : parent ≠ path := by
          intro hpath
          have hlen := (hensured he).length_le
          rw [hpath, List.length_append, List.length_singleton] at hlen
          omega
        exact ((h.lists_ensured hc (hbelow hp) hcons he hd).mp
          (ha.lists parent name hn (ne_of_isEnsured he) (hancestors parent hp hn))).right }

theorem nodeAdded_of_creates (h : PutInMemory creator tree path kind node tree') (hc : tree.Closed)
    (hcr : tree.Creates creator path (.memory path) kind) : tree.NodeAdded path (.memory path) kind tree' := by
  have hbelow {ancestor : HostPath String} (hp : ancestor <+: path) : tree.mountedVfatBackend ancestor = none :=
    hc.mountedVfat_prefix hcr.leads.left hp
  have hensured {ancestor : HostPath String} (he : isEnsured path ancestor) : ancestor <+: path :=
    (prefix_of_isEnsured he).trans (List.dropLast_prefix path)
  have hothers (other : HostPath String) (hn : other ≠ path) : tree'.seen other = tree.seen other := by
    by_cases hnew : isEnsured path other ∧ ¬tree.memIsDir other ∧ tree.consultsMem other
    case pos =>
      have ⟨he, hd, hcons⟩ := hnew
      have hv := hbelow (hensured he)
      have ⟨hr, ht, hm⟩ := of_isDirectory hd hv hcons (hcr.ancestors other (hensured he) hn)
      exact (h.seen_ensured hr hv hcons ht he hm).mpr (hcr.parents rfl other he hd hcons)
    case neg =>
      refine h.frame.seen (h.removed_eq hn) (fun hcons => h.mem_eq hn fun he => ?_) fun _ _ _ => ?_
      case refine_1 => exact Classical.byContradiction fun hd => hnew ⟨he, hd, hcons⟩
      case refine_2 => rw [h.disk, h.ext4Data]; exact ⟨rfl, rfl⟩
  exact {
    new := hcr.new
    found := h.found_new_iff.mpr ⟨hcr.leads, fun hk => hcr.kept rfl hk.left hk.right⟩
    listed := fun directory name hp =>
      (h.listed_iff hc (hbelow (hp ▸ List.prefix_append _ _)) hp).mpr (hcr.shown directory name hp)
    ancestors := fun ancestor hp hn => (isDirectory_of_seen (hothers ancestor hn)).mpr (hcr.ancestors ancestor hp hn)
    others := hothers
    lists := by
      intro other name hn hne hdir
      by_cases hv : tree.mountedVfatBackend other = none
      case neg => exact h.frame.lists_vfat hv
      case pos =>
        by_cases hnew : tree.consultsMem other ∧ isEnsured path (other ++ [name]) ∧ ¬tree.memIsDir (other ++ [name])
        case pos =>
          have ⟨hcons, he, hd⟩ := hnew
          refine (h.lists_ensured hc hv hcons he hd).mpr ⟨?_, ?_⟩
          case refine_1 =>
            cases ht : tree.isTmpfsPath other
            case false => rfl
            case true =>
              have ht := @Closed.isTmpfsPath_concat _ name _ _ hc ht
              have hcons : tree.consultsMem (other ++ [name]) := by rw [consultsMem, ht, Bool.true_or]
              have hdir := hcr.ancestors _ (hensured he) (ne_of_isEnsured he)
              exact ht.symm.trans (of_isDirectory hd (hbelow (hensured he)) hcons hdir).right.left
          case refine_2 =>
            exact hcr.entered rfl _ he hd (by rw [parentPath, List.dropLast_concat]; exact hcons)
        case neg =>
          refine h.lists_other hc hv hne (fun hcons he => ?_) fun hreads hr => ?_
          case refine_1 => exact Classical.byContradiction fun hd => hnew ⟨hcons, he, hd⟩
          case refine_2 =>
            exact Classical.byContradiction fun hd => hcr.entries other name path hn hne hdir hreads ⟨rfl, hr, hd⟩ }

end PutInMemory

-- A node is put on the ext4 volume.
structure PutOnExt4 (tree : NodeTree V) (path disk : HostPath String) (kind : NodeKind) (node : Node String)
    (tree' : NodeTree V) : Prop where
  frame    : Frame tree tree'
  removed  : ∀ p, tree'.removed p = (tree.removed p && p ≠ path)
  mem      : tree'.mem = tree.mem
  memData  : tree'.memData = tree.memData
  new      : tree'.disk disk = some node
  others   : ∀ p, p ≠ disk → tree'.disk p = tree.disk p ∧ tree'.ext4Data p = tree.ext4Data p
  free     : tree.disk disk = none
  ne       : disk ≠ []
  parent   : tree.ext4DirExists (parentPath disk)
  kind     : node.kind = kind

namespace PutOnExt4

variable {disk p : HostPath String} {kind : NodeKind} {node : Node String} {tree' : NodeTree V}

theorem ext4DirExists (h : PutOnExt4 tree path disk kind node tree') (hd : tree.ext4DirExists p) :
    tree'.ext4DirExists p := by
  have hp : p ≠ disk := by
    intro hp
    rw [hp, Vfs.ext4DirExists, h.free] at hd
    cases hd
  rw [Vfs.ext4DirExists, (h.others p hp).left]
  exact hd

theorem closed (h : PutOnExt4 tree path disk kind node tree') (hc : tree.Closed) : tree'.Closed where
  root := by
    rw [Vfs.memIsDir, h.mem]
    exact hc.root
  mem directory name hm := by
    rw [Vfs.memIsDir, h.mem]
    exact hc.mem directory name (h.mem ▸ hm)
  disk directory name hd := by
    by_cases hp : directory ++ [name] = disk
    case pos =>
      subst hp
      simpa [parentPath] using h.ext4DirExists h.parent
    case neg => exact h.ext4DirExists (hc.disk directory name ((h.others _ hp).left ▸ hd))
  mounts entry hm := hc.mounts entry (h.frame.mounts ▸ hm)

theorem removed_eq (h : PutOnExt4 tree path disk kind node tree') (hp : p ≠ path) :
    tree'.removed p = tree.removed p := by
  rw [h.removed, decide_eq_true hp, Bool.and_true]

theorem removed_new (h : PutOnExt4 tree path disk kind node tree') : tree'.removed path = false := by
  rw [h.removed, decide_eq_false (fun hn => hn rfl), Bool.and_false]

theorem reads (h : PutOnExt4 tree path disk kind node tree') {d : HostPath String} :
    tree'.Reads p d ↔ tree.Reads p d :=
  h.frame.reads fun _ => by rw [h.mem]

theorem found_new_iff (h : PutOnExt4 tree path disk kind node tree') :
    (∃ node', tree'.found path = some (.ext4 disk, node') ∧ node'.kind = kind) ↔ tree.Reads path disk := by
  simp only [found_ext4_iff, h.reads, h.removed_new, h.new]
  exact ⟨fun ⟨_, ⟨_, hr, _⟩, _⟩ => hr, fun hr => ⟨node, ⟨trivial, hr, rfl⟩, h.kind⟩⟩

-- Another path shows the new node exactly if it leads to it.
theorem seen_iff (h : PutOnExt4 tree path disk kind node tree') (hn : p ≠ path) :
    tree'.seen p = tree.seen p ↔ (tree.removed p = false → ¬tree.Reads p disk) := by
  constructor
  case mp =>
    intro hs hr hreads
    have hnew : tree'.found p = some (.ext4 disk, node) :=
      found_ext4_iff.mpr ⟨(h.removed_eq hn).trans hr, h.reads.mpr hreads, h.new⟩
    have hold : tree.found p = none := by
      refine Option.eq_none_iff_forall_ne_some.mpr fun (site, node') hf => ?_
      cases site
      case memory =>
        have ⟨_, _, _, hcons, hm⟩ := found_memory_iff.mp hf
        cases (hreads.right.right.right hcons).symm.trans hm
      case ext4 =>
        have ⟨_, hreads', hd⟩ := found_ext4_iff.mp hf
        rw [← hreads'.right.right.left, hreads.right.right.left, h.free] at hd
        cases hd
      case vfat => cases hreads.left.symm.trans (found_vfat_iff.mp hf).right.left
    rw [found_eq_none.mp hold, seen, hnew] at hs
    cases hs
  case mpr =>
    intro ha
    refine h.frame.seen (h.removed_eq hn) (fun _ => by rw [h.mem, h.memData]; exact ⟨rfl, rfl⟩) fun d hr hreads => ?_
    exact h.others d fun hd => ha hr (hd ▸ hreads)

theorem lists_eq (h : PutOnExt4 tree path disk kind node tree') (hc : tree.Closed)
    (hv : tree.mountedVfatBackend p = none) :
    tree'.lists p name =
      (if tree.consultsMem p then (tree.mem (p ++ [name])).map Node.isDirectory else none).or
        (if !tree.isTmpfsPath p && !tree'.removed (tree.ext4LookupPath p ++ [name]) then
          (tree'.disk (tree.ext4LookupPath p ++ [name])).map Node.isDirectory
        else none) := by
  rw [(h.closed hc).lists_eq (h.frame.mountedVfat.trans hv), h.frame.consultsMem, h.frame.isTmpfsPath,
    h.frame.ext4LookupPath, h.mem]

-- An entry that comes from the volume is another one exactly if it has been uncovered.
theorem entry_iff (h : PutOnExt4 tree path disk kind node tree') :
    (if !tree'.removed p then (tree'.disk p).map Node.isDirectory else none) =
      (if !tree.removed p then (tree.disk p).map Node.isDirectory else none) ↔
        ¬tree.Uncovered path p (.ext4 disk) := by
  simp only [Uncovered, h.removed]
  by_cases hp : p = disk
  case pos =>
    subst hp
    rw [h.new, h.free]
    by_cases he : p = path <;> cases tree.removed p <;> simp [he]
  case neg =>
    rw [(h.others p hp).left]
    by_cases he : p = path
    case pos =>
      subst he
      cases tree.removed p <;> cases tree.disk p <;> simp [hp]
    case neg => simp [hp, he]

theorem lists_iff (h : PutOnExt4 tree path disk kind node tree') (hc : tree.Closed)
    (hv : tree.mountedVfatBackend p = none) : tree'.lists p name = tree.lists p name ↔
      ∀ d, tree.ReadsEntry p name d → ¬tree.Uncovered path d (.ext4 disk) := by
  rw [h.lists_eq hc hv, hc.lists_eq hv]
  by_cases hm : tree.consultsMem p ∧ tree.mem (p ++ [name]) ≠ none
  case pos =>
    have ⟨node', hnode⟩ := Option.ne_none_iff_exists'.mp hm.right
    simp [hm.left, hnode, ReadsEntry]
  case neg =>
    have hnone : (if tree.consultsMem p then (tree.mem (p ++ [name])).map Node.isDirectory else none) = none := by
      split
      case isTrue hcons => rw [Classical.byContradiction fun hm' => hm ⟨hcons, hm'⟩]; rfl
      case isFalse => rfl
    rw [hnone, Option.none_or, Option.none_or]
    cases ht : tree.isTmpfsPath p
    case true => simp [ReadsEntry, ht]
    case false =>
      simp only [Bool.not_false, Bool.true_and]
      rw [h.entry_iff]
      exact ⟨fun hu d hd => hd.right.right.left ▸ hu, fun hd => hd _ ⟨hv, ht, rfl, hm⟩⟩

theorem listed_iff (h : PutOnExt4 tree path disk kind node tree') (hc : tree.Closed) (hr : tree.Reads path disk)
    (hp : path = p ++ [name]) : tree'.lists p name ≠ none ↔ tree.EntryShown path p name (.ext4 disk) := by
  have ⟨hv, ht, he, _⟩ := hr
  subst hp
  have hext : tree.ext4LookupPath p ++ [name] = disk := (ext4LookupPath_concat (he ▸ h.ne)).symm.trans he
  have htmpfs : tree.isTmpfsPath p = false := by
    cases ht' : tree.isTmpfsPath p
    case false => rfl
    case true => exact (hc.isTmpfsPath_concat ht').symm.trans ht
  rw [h.lists_eq hc (hc.mountedVfat_concat hv), hext, htmpfs, h.new, EntryShown, h.removed]
  cases hcons : tree.consultsMem p
  case true =>
    rw [ext4LookupPath_of_consultsMem hcons htmpfs] at hext
    simp [← hext]
  case false => by_cases hd : disk = p ++ [name] <;> cases tree.removed disk <;> simp [hd]

theorem creates_of_nodeAdded (h : PutOnExt4 tree path disk kind node tree') (hc : tree.Closed)
    (ha : tree.NodeAdded path (.ext4 disk) kind tree') (creator : Creator) :
    tree.Creates creator path (.ext4 disk) kind := by
  have hreads := h.found_new_iff.mp ha.found
  exact {
    new := ha.new
    leads := hreads
    kept := fun he => by cases he
    shown := fun directory name hp => (h.listed_iff hc hreads hp).mp (ha.listed directory name hp)
    ancestors := fun ancestor hp hn => by
      have hdir := ha.ancestors ancestor hp hn
      rw [isDirectory_iff, ha.others ancestor hn] at hdir
      exact isDirectory_iff.mpr hdir
    alone := by
      intro other disk' hn he
      cases he
      exact (h.seen_iff hn).mp (ha.others other hn)
    entries := by
      intro other name d hn hne hdir hentry
      exact (h.lists_iff hc hentry.left).mp (ha.lists other name hn hne hdir) d hentry
    parents := fun he => by cases he
    entered := fun he => by cases he }

theorem nodeAdded_of_creates (h : PutOnExt4 tree path disk kind node tree') (hc : tree.Closed) {creator : Creator}
    (hcr : tree.Creates creator path (.ext4 disk) kind) : tree.NodeAdded path (.ext4 disk) kind tree' := by
  have hothers (other : HostPath String) (hn : other ≠ path) : tree'.seen other = tree.seen other :=
    (h.seen_iff hn).mpr (hcr.alone other disk hn rfl)
  exact {
    new := hcr.new
    found := h.found_new_iff.mpr hcr.leads
    listed := fun directory name hp => (h.listed_iff hc hcr.leads hp).mpr (hcr.shown directory name hp)
    ancestors := fun ancestor hp hn => by
      rw [isDirectory_iff, hothers ancestor hn, ← isDirectory_iff]
      exact hcr.ancestors ancestor hp hn
    others := hothers
    lists := by
      intro other name hn hne hdir
      by_cases hv : tree.mountedVfatBackend other = none
      case pos => exact (h.lists_iff hc hv).mpr fun d hentry => hcr.entries other name d hn hne hdir hentry
      case neg => exact h.frame.lists_vfat hv }

end PutOnExt4

section Calls

variable {creator : Creator} {grants : Grants} {kind : NodeKind} {mode : BitVec 32} {tree' : NodeTree V}
variable {creation : Creation}

-- What a call that has created a node has done to the tree.
def Done (creator : Creator) (tree : NodeTree V) (path : HostPath String) (kind : NodeKind) (tree' : NodeTree V) :
    Place V → Prop
  | .memory p => p = path ∧ ∃ node, PutInMemory creator tree path kind node tree'
  | .ext4 d   => ∃ node, PutOnExt4 tree path d kind node tree'
  | .vfat ..  => False

theorem Done.iff {place : Place V} (h : Done creator tree path kind tree' place) (hc : tree.Closed) :
    tree.NodeAdded path place kind tree' ↔ tree.Creates creator path place kind := by
  cases place
  case memory =>
    have ⟨he, _, hp⟩ := h
    subst he
    exact ⟨hp.creates_of_nodeAdded hc, hp.nodeAdded_of_creates hc⟩
  case ext4 =>
    have ⟨_, hp⟩ := h
    exact ⟨fun ha => hp.creates_of_nodeAdded hc ha creator, hp.nodeAdded_of_creates hc⟩
  case vfat => cases h

-- Where `Vfs.create` and `Vfs.openCreate` put a node.
theorem create_changes {changes : List (Change V)} {ext4Place : Place V} {missing : SysErrNo}
    (h : tree.toVfs.create grants path ext4Place missing = .ok changes) :
    let memory := tree.memIsDir (parentPath path) && (isMemfsVolatileDir (parentPath path) ||
      !(!tree.isTmpfsPath (parentPath path) && tree.ext4DirExists (parentPath path)))
    changes = [⟨path, if memory then .memory path else ext4Place⟩] := by
  have ⟨_, _, h⟩ := Fallible.bind_ok h
  have ⟨_, _, h⟩ := Fallible.bind_ok h
  have ⟨_, h⟩ := Fallible.when_ok h
  dsimp only
  cases Fallible.ite_ok h
  case inl h =>
    have ⟨hm, h⟩ := h
    cases h
    rw [if_pos hm]
  case inr h =>
    have ⟨hm, h⟩ := h
    rw [if_neg hm]
    cases Fallible.ite_ok h
    case inl h =>
      cases h.right
      rfl
    case inr h =>
      have ⟨hx, h⟩ := h
      have ⟨hd, _⟩ := Fallible.ite_ok h |>.resolve_right fun h => nomatch h.right
      simp [hd, hx] at hm

theorem openCreate_changes {changes : List (Change V)} {start : HostPath String} {flags : OpenFlags}
    (h : tree.toVfs.openCreate grants path = .ok changes) :
    changes = [⟨path, tree.place (.open start flags mode) path⟩] ∧
      (tree.place (.open start flags mode) path = .memory path → tree.memIsDir (parentPath path)) := by
  simp only [Vfs.openCreate] at h
  obtain ⟨_, h⟩ := Fallible.when_ok h
  simp only [place]
  cases Fallible.ite_ok h
  case inl h =>
    obtain ⟨hm, h⟩ := h
    cases h
    rw [if_pos hm]
    simp only [Bool.and_eq_true] at hm
    exact ⟨rfl, fun _ => hm.left.right⟩
  case inr h =>
    obtain ⟨hm, h⟩ := h
    rw [if_neg hm]
    cases Fallible.ite_ok h
    case inl h =>
      cases h.right
      refine ⟨rfl, fun he => ?_⟩
      cases he
    case inr h =>
      obtain ⟨hx, h⟩ := h
      cases Fallible.ite_ok h
      case inl hd => simp_all
      case inr h => cases h.right

-- The node at the path, when memory has been given the directories on the way.
theorem mem_ensureParentDirs : (tree.ensureParentDirs creator path).mem path = tree.mem path := by
  simp only [ensureParentDirs]
  split
  case isTrue he => exact absurd rfl (ne_of_isEnsured he)
  case isFalse => rfl

theorem memIsDir_ensureParentDirs : (tree.ensureParentDirs creator path).memIsDir path = tree.memIsDir path := by
  rw [Vfs.memIsDir, Vfs.memIsDir, mem_ensureParentDirs]

theorem PutInMemory.of_put {node : Node String} {data : NodeData}
    (hp : path ≠ [] → (tree.ensureParentDirs creator path).memIsDir (parentPath path))
    (hd : tree.memIsDir path → node.isDirectory) (hk : node.kind = kind ↔ ¬(kind = .regular ∧ tree.memIsDir path)) :
    PutInMemory creator tree path kind node
      (((tree.clearWhiteout path).ensureParentDirs creator path).putMem path node data) where
  frame    := ⟨rfl, rfl, rfl, rfl⟩
  removed  := fun _ => rfl
  new      := if_pos rfl
  mem      := fun _ hn => if_neg hn
  memData  := fun _ hn => if_neg hn
  disk     := rfl
  ext4Data := rfl
  parent   := by
    intro hne
    have hn : parentPath path ≠ path := by
      intro he
      have hlen := congrArg List.length he
      rw [parentPath, List.length_dropLast] at hlen
      have := List.length_pos_iff.mpr hne
      omega
    have hmem :
        (((tree.clearWhiteout path).ensureParentDirs creator path).putMem path node data).mem (parentPath path) =
          (tree.ensureParentDirs creator path).mem (parentPath path) := if_neg hn
    rw [Vfs.memIsDir, hmem]
    exact hp hne
  kept     := hd
  kind     := hk

theorem Closed.memIsDir_ensureParentDirs (hc : tree.Closed) (h : tree.memIsDir (parentPath path)) :
    (tree.ensureParentDirs creator path).memIsDir (parentPath path) := by
  rw [hc.ensureParentDirs_eq h]
  exact h

theorem addDirWithMode_put (hc : tree.Closed) (h : tree.memIsDir (parentPath path)) :
    ∃ node, PutInMemory creator tree path .directory node
      ((tree.clearWhiteout path).addDirWithMode creator path mode) := by
  have hp (_ : path ≠ []) := @Closed.memIsDir_ensureParentDirs _ _ _ creator hc h
  rw [addDirWithMode]
  split
  case h_1 => exact ⟨_, .of_put hp (fun _ => rfl) ⟨nofun, fun _ => rfl⟩⟩
  case h_2 => exact ⟨_, .of_put hp (fun _ => rfl) ⟨nofun, fun _ => rfl⟩⟩

theorem addFileWithMode_put (hc : tree.Closed) (h : tree.memIsDir (parentPath path)) :
    ∃ node, PutInMemory creator tree path .regular node
      ((tree.clearWhiteout path).addFileWithMode creator path mode) := by
  have hp (_ : path ≠ []) := @Closed.memIsDir_ensureParentDirs _ _ _ creator hc h
  have hdir : ((tree.clearWhiteout path).ensureParentDirs creator path).memIsDir path = tree.memIsDir path :=
    @memIsDir_ensureParentDirs path _ (tree.clearWhiteout path) creator
  refine ⟨_, .of_put hp (fun hd => ?_) ?_⟩ <;> rw [hdir]
  case refine_1 =>
    rw [if_pos hd]
    rfl
  case refine_2 => cases tree.memIsDir path <;> simp [Node.kind]

theorem addOverlaySpecialWithMode_put {special : MemSpecialKind}
    (h : (tree.clearWhiteout path).addOverlaySpecialWithMode creator path special mode = (.ok (), tree')) :
    ∃ node, PutInMemory creator tree path .other node tree' := by
  rw [addOverlaySpecialWithMode, addSpecialWithMode] at h
  split at h
  case isTrue => cases h
  case isFalse hp =>
    split at h
    case isTrue => cases h
    case isFalse hm =>
      cases h
      rw [Vfs.memExists, @mem_ensureParentDirs path _ (tree.clearWhiteout path) creator] at hm
      have hnone : (tree.clearWhiteout path).mem path = none := by simpa using hm
      have hparent : ((tree.clearWhiteout path).ensureParentDirs creator path).memIsDir (parentPath path) := by
        simpa using hp
      have hd : ¬tree.memIsDir path := fun hd => by
        have ⟨metadata, hm⟩ := memIsDir_iff.mp hd
        cases hm.symm.trans hnone
      exact ⟨_, .of_put (fun _ => hparent) (fun hd' => absurd hd' hd) ⟨nofun, fun _ => rfl⟩⟩

-- Below a directory in memory, nothing has to be added on the way.
theorem addSpecialWithMode_put {special : MemSpecialKind} (hc : tree.Closed) (hp : tree.memIsDir (parentPath path))
    (h : (tree.clearWhiteout path).addSpecialWithMode creator path special mode = (.ok (), tree')) :
    ∃ node, PutInMemory creator tree path .other node tree' := by
  have hc' : (tree.clearWhiteout path).Closed := ⟨hc.root, hc.mem, hc.disk, hc.mounts⟩
  rw [← @Closed.ensureParentDirs_eq path _ (tree.clearWhiteout path) creator hc' hp] at h
  exact addOverlaySpecialWithMode_put h

theorem createExt4_ok {disk : HostPath String} {node : Metadata → Node String} {isDir : Bool}
    (h : tree.createExt4 creator disk node mode isDir = (.ok (), tree')) :
    ∃ metadata data, tree' = tree.putExt4 disk (node metadata) data ∧ disk ≠ [] ∧ tree.disk disk = none ∧
      tree.ext4DirExists (parentPath disk) := by
  rw [createExt4] at h
  split at h
  case isTrue => cases h
  case isFalse hne =>
    split at h
    case h_1 => cases h
    case h_3 => cases h
    case h_2 parent hp =>
      split at h
      case isTrue => cases h
      case isFalse hfree =>
        split at h
        case h_1 => cases h
        case h_2 ino _ =>
          cases h
          exact ⟨_, _, rfl, by simpa using hne, by simpa using hfree, by rw [Vfs.ext4DirExists, hp]; rfl⟩

theorem PutOnExt4.of_put {disk : HostPath String} {node : Node String} {data : NodeData} (hn : disk ≠ [])
    (hf : tree.disk disk = none) (hp : tree.ext4DirExists (parentPath disk)) (hk : node.kind = kind) :
    PutOnExt4 tree path disk kind node ((tree.putExt4 disk node data).clearWhiteout path) where
  frame    := ⟨rfl, rfl, rfl, rfl⟩
  removed  := fun _ => rfl
  mem      := rfl
  memData  := rfl
  new      := if_pos rfl
  others   := fun _ hn => ⟨if_neg hn, if_neg hn⟩
  free     := hf
  ne       := hn
  parent   := hp
  kind     := hk

theorem place_mkdir : tree.place (.mkdir path mode) path = .memory path ∧ tree.memIsDir (parentPath path) ∨
    tree.place (.mkdir path mode) path = .ext4 path := by
  simp only [place]
  split
  case isTrue hm =>
    simp only [Bool.and_eq_true] at hm
    exact .inl ⟨rfl, hm.left⟩
  case isFalse => exact .inr rfl

theorem createNew_done {memory ext4 : NodeTree V → Except SysErrNo Unit × NodeTree V} {missing : SysErrNo}
    (mode : BitVec 32) (h : tree.createNew grants path memory ext4 missing = (.ok (), tree')) :
    tree.place (.mkdir path mode) path = .memory path ∧ tree.memIsDir (parentPath path) ∧
        memory (tree.clearWhiteout path) = (.ok (), tree') ∨
      tree.place (.mkdir path mode) path = .ext4 path ∧ ext4 (tree.clearWhiteout path) = (.ok (), tree') := by
  rw [createNew] at h
  split at h
  case isTrue => cases h
  case isFalse =>
    dsimp only at h
    cases hcr : (tree.clearWhiteout path).toVfs.create grants path (.ext4 path) missing
    case error => rw [hcr] at h; cases h
    case ok changes =>
      have hch : changes = [⟨path, tree.place (.mkdir path mode) path⟩] := create_changes hcr
      rw [hcr, hch] at h
      cases @place_mkdir path _ tree mode
      case inl hm =>
        rw [hm.left] at h
        exact .inl ⟨hm.left, hm.right, h⟩
      case inr he =>
        rw [he] at h
        exact .inr ⟨he, h⟩

theorem openCreate_done {start : HostPath String} {flags : OpenFlags} (hc : tree.Closed)
    (h : tree.openCreate creator grants path mode = (.ok (), tree')) :
    Done creator tree path .regular tree' (tree.place (.open start flags mode) path) := by
  rw [openCreate] at h
  cases hop : tree.toVfs.openCreate grants path
  case error => rw [hop] at h; cases h
  case ok changes =>
    have ⟨hch, hm⟩ := @openCreate_changes _ _ _ grants mode _ start flags hop
    rw [hop, hch] at h
    cases hpl : tree.place (.open start flags mode) path
    case memory p =>
      have he : p = path := by
        simp only [place] at hpl
        split at hpl <;> cases hpl
        rfl
      subst he
      rw [hpl] at h
      cases h
      exact ⟨rfl, addFileWithMode_put hc (hm hpl)⟩
    case ext4 disk =>
      rw [hpl] at h
      dsimp only at h
      cases hx : tree.createExt4 creator disk .regular mode false
      case mk result created =>
        rw [hx] at h
        cases result
        case error => cases h
        case ok =>
          cases h
          have ⟨_, _, ht, hn, hf, hp⟩ := createExt4_ok hx
          subst ht
          exact ⟨_, .of_put hn hf hp rfl⟩
    case vfat =>
      simp only [place] at hpl
      split at hpl <;> cases hpl

theorem map_ok {result : Except SysErrNo Unit} {p : HostPath String}
    (h : result.map (fun _ => some p) = .ok (some path)) : result = .ok () ∧ p = path := by
  cases result <;> cases h
  exact ⟨rfl, rfl⟩

-- A call that has created a node has put it at its place.
theorem create_done (hc : tree.Closed)
    (h : tree.create creator grants creation = (.ok (some path), tree')) :
    Done creator tree path creation.kind tree' (tree.place creation path) := by
  have hext4 {kind : NodeKind} {node : Metadata → Node String} {isDir : Bool} {mode : BitVec 32}
      (hk : ∀ metadata, (node metadata).kind = kind)
      (h : (tree.clearWhiteout path).createExt4 creator path node mode isDir = (.ok (), tree')) :
      Done creator tree path kind tree' (.ext4 path) := by
    have ⟨metadata, data, ht, hn, hf, hp⟩ := createExt4_ok h
    subst ht
    have hput : PutOnExt4 tree path path kind (node metadata)
      ((tree.putExt4 path (node metadata) data).clearWhiteout path) := .of_put hn hf hp (hk metadata)
    exact ⟨_, hput⟩
  cases creation
  case mkdir start mode =>
    simp only [create] at h
    split at h
    case h_1 => cases h
    case h_2 norm _ =>
      have ⟨hr, ht⟩ := Prod.mk.inj h
      have ⟨hok, he⟩ := map_ok hr
      subst he
      have hpl : tree.place (.mkdir start mode) norm = tree.place (.mkdir norm mode) norm := rfl
      have hnew : tree.createDirWithMode creator grants norm mode = (.ok (), tree') := Prod.ext hok ht
      rw [createDirWithMode] at hnew
      rw [hpl]
      cases createNew_done mode hnew
      case inl hm =>
        have ⟨hpl, hp, hm⟩ := hm
        cases hm
        rw [hpl]
        exact ⟨rfl, addDirWithMode_put hc hp⟩
      case inr he =>
        rw [he.left]
        exact hext4 (fun _ => rfl) he.right
  case mknod start special mode =>
    cases special
    case none =>
      simp only [create] at h
      have ⟨hr, ht⟩ := Prod.mk.inj h
      have ⟨hok, he⟩ := map_ok hr
      subst he
      have hpl : tree.place (.mknod start none mode) start = tree.place (.mkdir start mode) start := rfl
      have hnew : tree.createRegularFile creator grants start mode = (.ok (), tree') := Prod.ext hok ht
      rw [createRegularFile] at hnew
      rw [hpl]
      cases createNew_done mode hnew
      case inl hm =>
        have ⟨hpl, hp, hm⟩ := hm
        cases hm
        rw [hpl]
        exact ⟨rfl, addFileWithMode_put hc hp⟩
      case inr he =>
        rw [he.left]
        exact hext4 (fun _ => rfl) he.right
    case some kind =>
      simp only [create] at h
      have ⟨hr, ht⟩ := Prod.mk.inj h
      have ⟨hok, he⟩ := map_ok hr
      subst he
      have hnew : tree.createSpecialNode creator grants start kind mode = (.ok (), tree') := Prod.ext hok ht
      rw [createSpecialNode] at hnew
      cases createNew_done mode hnew
      case inl hm =>
        have ⟨_, hp, hm⟩ := hm
        exact ⟨rfl, addSpecialWithMode_put hc hp hm⟩
      case inr he => exact ⟨rfl, addOverlaySpecialWithMode_put he.right⟩
  case «open» start flags mode =>
    simp only [create, openPath] at h
    split at h
    case h_1 => cases h
    case h_2 => cases h
    case h_3 norm _ _ =>
      split at h
      case isFalse => cases h
      case isTrue =>
        split at h
        case h_1 => cases h
        case h_2 hop =>
          cases h
          exact openCreate_done hc hop

end Calls

section Sample

-- A directory of the ext4 volume that belongs to a user, and the superuser.
def userDir : NodeTree Empty where
  mounts           := [⟨[], [], .root, false⟩]
  removed          := fun _ => false
  mem              := fun path => if path = [] then some (.directory ⟨1, 0o755, 0, 0⟩) else none
  disk             := fun path =>
    if path = [] then some (.directory ⟨2, 0o755, 0, 0⟩)
    else if path = ["d"] then some (.directory ⟨11, 0o700, 1000, 1000⟩)
    else none
  volume           := nofun
  loopDevice       := fun _ => false
  procfsLinkSource := fun _ => false
  memData          := fun _ => .empty
  ext4Data         := fun _ => { NodeData.empty with size := 4096, blocks := 8 }
  volumeData       := nofun
  volumeList       := nofun

def superuser : Creator where
  credentials := ⟨⟨0, 0, 0, 0⟩, ⟨0, 0, 0, 0⟩, []⟩
  memIno      := fun _ => 2
  ext4Ino     := fun _ => .ok 12
  ext4Data    := .empty

theorem userDir_closed : userDir.Closed where
  root := rfl
  mem directory name hm := absurd (if_neg (List.concat_ne_nil _ _)) hm
  disk directory name hd := by
    cases directory
    case nil => rfl
    case cons => simp [userDir] at hd
  mounts := by simp [userDir]

end Sample

end NodeTree

end WllOs.Fs
