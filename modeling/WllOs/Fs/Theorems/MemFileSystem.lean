import WllOs.Fs.MemFileSystem

namespace WllOs.Fs.MemFileSystem

variable {fs fs' fs'' : MemFileSystem} {old new path : MemPath} {node node' : Node}

theorem mem_table_iff {α : Type} {map : PathMap α} : path ∈ map ↔ ∃ value, map.lookup path = some value :=
  AList.lookup_isSome.symm.trans Option.isSome_iff_exists

section Paths

variable {rest : MemPath}

theorem isDescendant_iff {parent child : MemPath} :
    isDescendant parent child ↔ parent ≠ [] ∧ parent <+: child ∧ parent ≠ child := by
  simp [isDescendant, and_assoc]

theorem eq_or_isDescendant (h : old ≠ []) : path = old ∨ isDescendant old path ↔ old <+: path := by
  rw [isDescendant_iff]
  by_cases he : path = old
  case pos => simp [he]
  case neg => simp [he, h, Ne.symm he]

@[simp]
theorem renamed_append : renamed old new (old ++ rest) = new ++ rest := by
  simp [renamed]

@[simp]
theorem renamed_self : renamed old new old = new := by
  simp [renamed]

theorem renamed_renamed (h : old <+: path) : renamed new old (renamed old new path) = path := by
  have ⟨rest, he⟩ := h
  subst he
  simp

theorem prefix_renamed : new <+: renamed old new path :=
  List.prefix_append _ _

-- Neither of two paths leads through the other.
structure Apart (old new : MemPath) : Prop where
  left : ¬old <+: new
  right : ¬new <+: old

theorem Apart.symm (h : Apart old new) : Apart new old :=
  ⟨h.right, h.left⟩

theorem Apart.not_both (h : Apart old new) (ho : old <+: path) : ¬new <+: path :=
  fun hn => (List.prefix_or_prefix_of_prefix ho hn).elim h.left h.right

theorem treeTarget_eq (h : old ≠ []) :
    treeTarget old new path = if old <+: path then some (renamed old new path) else none := by
  simp only [treeTarget, eq_or_isDescendant h]

theorem separate_treeTarget (h : Apart old new) (ho : old ≠ []) : Rekey.Separate (treeTarget old new) where
  inj {path path' target} ht ht' := by
    rw [treeTarget_eq ho] at ht ht'
    split at ht <;> cases ht
    split at ht'
    case isFalse => cases ht'
    case isTrue hp hp' =>
      rw [← @renamed_renamed _ new _ hp, ← Option.some.inj ht', renamed_renamed hp']
  stays {path target} ht := by
    rw [treeTarget_eq ho] at ht ⊢
    split at ht <;> cases ht
    exact if_neg (h.symm.not_both prefix_renamed)

-- What is found in a table that has been moved, when nothing has been at the new path.
theorem lookup_treeTarget {α : Type} {map : PathMap α} (h : Apart old new) (ho : old ≠ [])
    (hn : ∀ path, new <+: path → map.lookup path = none) :
    (Rekey.rekey (treeTarget old new) map).lookup path = (movedFrom old new path).bind map.lookup := by
  have hsep := separate_treeTarget h ho
  simp only [movedFrom]
  split
  case isTrue hp =>
    have ht : treeTarget old new (renamed new old path) = some path := by
      rw [treeTarget_eq ho, if_pos prefix_renamed, renamed_renamed hp]
    rw [Rekey.lookup_rekey_of_source hsep ht, hn path hp, Option.or_none, Option.bind_some]
  case isFalse hp =>
    split
    case isTrue hq =>
      have ht : treeTarget old new path = some (renamed old new path) := by rw [treeTarget_eq ho, if_pos hq]
      rw [Rekey.lookup_rekey_of_moved hsep ht, Option.bind_none]
    case isFalse hq =>
      refine Rekey.lookup_rekey_of_ne (by rw [treeTarget_eq ho, if_neg hq]) fun source hs => ?_
      rw [treeTarget_eq ho] at hs
      split at hs <;> cases hs
      exact hp prefix_renamed

-- The path itself is in none of these tables.
theorem rekey_belowTarget {α : Type} {map : PathMap α} (ho : map.lookup old = none) :
    Rekey.rekey (belowTarget old new) map = Rekey.rekey (treeTarget old new) map := by
  have he : Rekey.updates (belowTarget old new) map = Rekey.updates (treeTarget old new) map := by
    refine List.filterMap_congr fun entry hm => ?_
    have hne : entry.fst ≠ old := fun he => by
      rw [AList.lookup_eq_none, AList.mem_keys, ← he] at ho
      exact ho (List.mem_map_of_mem hm)
    simp [belowTarget, treeTarget, hne]
  rw [Rekey.rekey, Rekey.rekey, he]

theorem not_prefix_parentPath (h : path ≠ []) : ¬path <+: parentPath path := by
  intro hp
  have hlen := hp.length_le
  have := List.length_pos_iff.mpr h
  simp only [parentPath, List.length_dropLast] at hlen
  omega

end Paths

section WellFormed

variable (h : fs.WellFormed)
include h

-- What is on the way to a path is a directory.
theorem WellFormed.above (hs : fs.Has path node) {dir : MemPath} (hp : dir <+: path) (hn : dir ≠ path) :
    fs.Has dir .directory := by
  have ⟨rest, he⟩ := hp
  subst he
  induction rest using List.reverseRecOn generalizing node
  case nil => simp at hn
  case append_singleton rest name hi =>
    have hdir := h.parent _ _ hs (by simp)
    rw [← List.append_assoc, parentPath, List.dropLast_concat] at hdir
    by_cases hr : rest = []
    case pos => simpa [hr] using hdir
    case neg => exact hi hdir (List.prefix_append _ _) (by simp [hr])

theorem WellFormed.nothing_beneath {file : MemPath} (hf : ¬fs.Has file .directory) (hp : file <+: path)
    (hn : path ≠ file) : ¬fs.Has path node :=
  fun hs => hf (h.above hs hp (Ne.symm hn))

theorem WellFormed.exists_iff : fs.exists path ↔ ∃ node, fs.Has path node := by
  simp only [«exists», Bool.or_eq_true, decide_eq_true_eq, h.names]
  constructor
  case mp =>
    intro hs
    obtain ((⟨file, hm, he⟩ | hd) | hl) | hk := hs
    case inl.inl.inl =>
      subst he
      exact ⟨.file file.backing file.linkKey, hm⟩
    case inl.inl.inr => exact ⟨.directory, hd⟩
    case inl.inr =>
      have ⟨target, ht⟩ := mem_table_iff.mp hl
      exact ⟨.symlink target, ht⟩
    case inr =>
      have ⟨kind, hk⟩ := mem_table_iff.mp hk
      exact ⟨.special kind, hk⟩
  case mpr =>
    intro ⟨node, hs⟩
    cases node
    case directory => exact .inl (.inl (.inr hs))
    case file backing linkKey => exact .inl (.inl (.inl ⟨_, hs, rfl⟩))
    case symlink => exact .inl (.inr (mem_table_iff.mpr ⟨_, hs⟩))
    case special => exact .inr (mem_table_iff.mpr ⟨_, hs⟩)

omit h in
theorem dirHasEntries_iff (hp : path ≠ []) :
    fs.dirHasEntries path ↔ ∃ child node, path <+: child ∧ child ≠ path ∧ fs.Has child node := by
  have hd (child : MemPath) : isDescendant path child ↔ path <+: child ∧ child ≠ path := by
    rw [isDescendant_iff]
    simp [hp, ne_comm]
  simp only [dirHasEntries, Bool.or_eq_true, List.any_eq_true, hd]
  constructor
  case mp =>
    intro hs
    obtain ((⟨file, hm, hc, hn⟩ | ⟨link, hm, hc, hn⟩) | ⟨special, hm, hc, hn⟩) | ⟨dir, hm, hc, hn⟩ := hs
    case inl.inl.inl => exact ⟨_, .file file.backing file.linkKey, hc, hn, hm⟩
    case inl.inl.inr =>
      have ⟨target, ht⟩ := mem_table_iff.mp (AList.mem_keys.mpr hm)
      exact ⟨link, .symlink target, hc, hn, ht⟩
    case inl.inr =>
      have ⟨kind, hk⟩ := mem_table_iff.mp (AList.mem_keys.mpr hm)
      exact ⟨special, .special kind, hc, hn, hk⟩
    case inr => exact ⟨dir, .directory, hc, hn, AList.mem_keys.mpr hm⟩
  case mpr =>
    intro ⟨child, node, hc, hn, hs⟩
    cases node
    case directory => exact .inr ⟨child, AList.mem_keys.mp hs, hc, hn⟩
    case file backing linkKey => exact .inl (.inl (.inl ⟨_, hs, hc, hn⟩))
    case symlink =>
      exact .inl (.inl (.inr ⟨child, AList.mem_keys.mp (mem_table_iff.mpr ⟨_, hs⟩), hc, hn⟩))
    case special =>
      exact .inl (.inr ⟨child, AList.mem_keys.mp (mem_table_iff.mpr ⟨_, hs⟩), hc, hn⟩)

theorem WellFormed.metadata_none (hn : ∀ node, ¬fs.Has path node) : fs.metadata.lookup path = none := by
  rw [AList.lookup_eq_none, h.metadata]
  intro ⟨node, hs⟩
  exact hn node hs

end WellFormed

-- Nothing is at a path or beneath it.
structure Vacant (fs : MemFileSystem) (path : MemPath) : Prop where
  has : ∀ child node, path <+: child → ¬fs.Has child node
  metadata : ∀ child, path <+: child → fs.metadata.lookup child = none

section RenameTree

variable (ho : old ≠ []) (hv : fs.Vacant new)
include ho hv

theorem mem_renamed_files (hold : ∀ file ∈ fs.files, file.name ≠ old) {backing : Nat} {linkKey : MemPath} :
    ⟨path, backing, linkKey⟩ ∈ (fs.renameTree old new).files ↔
      ∃ origin, movedFrom old new path = some origin ∧ ⟨origin, backing, linkKey⟩ ∈ fs.files := by
  have hvacant (file : MemFileName) (hm : file ∈ fs.files) : ¬new <+: file.name :=
    fun hp => hv.has file.name (.file file.backing file.linkKey) hp hm
  have hd (file : MemFileName) (hm : file ∈ fs.files) : isDescendant old file.name ↔ old <+: file.name := by
    rw [isDescendant_iff]
    simp [ho, (hold file hm).symm]
  simp only [renameTree, rebuildFileNames, List.mem_map]
  constructor
  case mp =>
    intro ⟨file, hm, he⟩
    split at he
    case isTrue hdesc =>
      have hp := (hd file hm).mp hdesc
      cases he
      refine ⟨file.name, ?_, hm⟩
      rw [movedFrom, if_pos prefix_renamed, renamed_renamed hp]
    case isFalse hdesc =>
      have hp := mt (hd file hm).mpr hdesc
      subst he
      exact ⟨path, by rw [movedFrom, if_neg (hvacant _ hm), if_neg hp], hm⟩
  case mpr =>
    intro ⟨origin, ho', hm⟩
    simp only [movedFrom] at ho'
    split at ho'
    case isTrue hp =>
      cases ho'
      refine ⟨_, hm, ?_⟩
      rw [if_pos ((hd _ hm).mpr prefix_renamed), renamed_renamed hp]
    case isFalse =>
      split at ho' <;> cases ho'
      case isFalse hp =>
        exact ⟨_, hm, if_neg (mt (hd _ hm).mp hp)⟩

theorem renameTree_moved (hap : Apart old new) (hdir : ∀ node, fs.Has old node → node = .directory) :
    fs.Moved old new (fs.renameTree old new) := by
  have hold (file : MemFileName) (hm : file ∈ fs.files) : file.name ≠ old := by
    intro he
    subst he
    cases hdir (.file file.backing file.linkKey) hm
  have htable {α : Type} (map : PathMap α) (node : α → Node) (hn : ∀ value, node value ≠ .directory)
      (hs : ∀ child value, map.lookup child = some value → fs.Has child (node value)) (path : MemPath) :
      (Rekey.rekey (belowTarget old new) map).lookup path = (movedFrom old new path).bind map.lookup := by
    rw [rekey_belowTarget]
    · refine lookup_treeTarget hap ho fun child hp => Option.eq_none_iff_forall_ne_some.mpr fun value hl => ?_
      exact hv.has child (node value) hp (hs child value hl)
    · exact Option.eq_none_iff_forall_ne_some.mpr fun value hl => hn value (hdir _ (hs old value hl))
  refine ⟨fun path node => ?_, fun path => lookup_treeTarget hap ho hv.metadata⟩
  cases node
  case directory =>
    have hl := @lookup_treeTarget old new path _ fs.dirs hap ho fun child hp =>
      AList.lookup_eq_none.mpr (hv.has child .directory hp)
    simp only [Has, renameTree, rebuildFileNames, ← AList.lookup_isSome, hl]
    cases movedFrom old new path <;> simp
  case file => exact mem_renamed_files ho hv hold
  case symlink target =>
    simp only [Has, renameTree, rebuildFileNames, htable fs.symlinks .symlink nofun (fun _ _ hs => hs), Option.bind_eq_some_iff]
  case special kind =>
    simp only [Has, renameTree, rebuildFileNames, htable fs.specials .special nofun (fun _ _ hs => hs), Option.bind_eq_some_iff]

omit ho in
theorem renameTree_nodup (hn : (fs.files.map MemFileName.name).Nodup) :
    ((fs.renameTree old new).files.map MemFileName.name).Nodup := by
  have hvacant (name : MemPath) (hm : name ∈ fs.files.map MemFileName.name) : ¬new <+: name := by
    have ⟨file, hf, he⟩ := List.mem_map.mp hm
    subst he
    exact fun hp => hv.has file.name (.file file.backing file.linkKey) hp hf
  have hmap : (fs.renameTree old new).files.map MemFileName.name = (fs.files.map MemFileName.name).map fun name =>
      if isDescendant old name then renamed old new name else name := by
    simp only [renameTree, rebuildFileNames, List.map_map]
    refine List.map_congr_left fun file _ => ?_
    simp only [Function.comp]
    split <;> rfl
  rw [hmap]
  refine List.Nodup.map_on (fun name hm name' hm' he => ?_) hn
  have hd {name : MemPath} (hd : isDescendant old name) : old <+: name := (isDescendant_iff.mp hd).right.left
  split at he
  case isTrue hdesc =>
    split at he
    case isTrue hdesc' => rw [← @renamed_renamed _ new _ (hd hdesc), he, renamed_renamed (hd hdesc')]
    case isFalse => exact absurd (he ▸ prefix_renamed) (hvacant name' hm')
  case isFalse =>
    split at he
    case isTrue => exact absurd (he ▸ prefix_renamed) (hvacant name hm)
    case isFalse => exact he

end RenameTree

theorem mem_rebuilt {files : List MemFileName} {names : PathSet} :
    path ∈ files.foldl (fun names file => names.insert file.name ()) names ↔
      path ∈ names ∨ ∃ file ∈ files, file.name = path := by
  induction files generalizing names
  case nil => simp
  case cons file files hi =>
    rw [List.foldl_cons, hi, AList.mem_insert]
    simp only [List.mem_cons, exists_eq_or_imp]
    tauto

theorem renameTree_names : path ∈ (fs.renameTree old new).fileNames ↔
    ∃ file ∈ (fs.renameTree old new).files, file.name = path := by
  simp only [renameTree, rebuildFileNames]
  rw [mem_rebuilt]
  simp

-- A tree that has been moved is well formed again.
theorem Moved.wellFormed (hm : fs.Moved old new fs') (h : fs.WellFormed) (hap : Apart old new) (ho : old ≠ [])
    (hne : new ≠ []) (hp : fs.Has (parentPath new) .directory)
    (hnames : ∀ path, path ∈ fs'.fileNames ↔ ∃ file ∈ fs'.files, file.name = path)
    (hnodup : (fs'.files.map MemFileName.name).Nodup) : fs'.WellFormed where
  names := hnames
  nodup := hnodup
  root := by
    rw [hm.has]
    exact ⟨[], by simp [movedFrom, ho, hne], h.root⟩
  one path node node' hs hs' := by
    have ⟨origin, he, hs⟩ := (hm.has path node).mp hs
    have ⟨origin', he', hs'⟩ := (hm.has path node').mp hs'
    cases he.symm.trans he'
    exact h.one origin node node' hs hs'
  parent path node hs hr := by
    have ⟨origin, he, hs⟩ := (hm.has path node).mp hs
    refine (hm.has _ .directory).mpr ?_
    have hparent {path : MemPath} : parentPath path <+: path := List.dropLast_prefix path
    by_cases hn : new <+: path
    case pos =>
      have ⟨rest, hrest⟩ := hn
      subst hrest
      rw [movedFrom, if_pos hn, renamed_append] at he
      cases he
      cases List.eq_nil_or_concat rest
      case inl hnil =>
        subst hnil
        rw [List.append_nil] at hn ⊢
        have hshort := not_prefix_parentPath hne
        exact ⟨parentPath new, by rw [movedFrom, if_neg hshort, if_neg fun hle => hap.left (hle.trans hparent)], hp⟩
      case inr hconcat =>
        have ⟨rest, name, hconcat⟩ := hconcat
        subst hconcat
        rw [List.concat_eq_append] at hs ⊢
        have hdir := h.parent _ _ hs (by simp)
        rw [← List.append_assoc, parentPath, List.dropLast_concat] at hdir ⊢
        exact ⟨old ++ rest, by rw [movedFrom, if_pos (List.prefix_append _ _), renamed_append], hdir⟩
    case neg =>
      rw [movedFrom, if_neg hn] at he
      split at he <;> cases he
      case isFalse hold =>
        refine ⟨parentPath path, ?_, h.parent path node hs hr⟩
        rw [movedFrom, if_neg fun hle => hn (hle.trans hparent), if_neg fun hle => hold (hle.trans hparent)]
  metadata path := by
    rw [mem_table_iff, hm.metadata]
    simp only [hm.has]
    cases movedFrom old new path
    case none => simp
    case some origin => simpa [mem_table_iff] using h.metadata origin

section Single

variable (h : fs.WellFormed) (hap : Apart old new)
include h hap

-- An object without others beneath it has been moved when it is at the new path and not at the old one.
theorem moved_single (ho : ¬fs.Has old .directory) (hn : ¬fs.Has new .directory)
    (hnew : ∀ node, fs'.Has new node ↔ fs.Has old node) (hold : ∀ node, ¬fs'.Has old node)
    (hother : ∀ path, path ≠ old → path ≠ new → ∀ node, fs'.Has path node ↔ fs.Has path node)
    (hmetadata : ∃ metadata, fs.metadata.lookup old = some metadata ∧
      fs'.metadata = (fs.metadata.erase old).insert new metadata) : fs.Moved old new fs' := by
  have ⟨metadata, hm, hm'⟩ := hmetadata
  have hne : old ≠ new := fun he => hap.left (he ▸ List.prefix_refl _)
  have hbeneath {file child : MemPath} {node : Node} (hf : ¬fs.Has file .directory) (hp : file <+: child)
      (hc : child ≠ file) : ¬fs.Has child node := h.nothing_beneath hf hp hc
  suffices hpath : ∀ path, (∀ node, fs'.Has path node ↔ ∃ origin, movedFrom old new path = some origin ∧
      fs.Has origin node) ∧ fs'.metadata.lookup path = (movedFrom old new path).bind fs.metadata.lookup from
    ⟨fun path => (hpath path).left, fun path => (hpath path).right⟩
  intro path
  by_cases hpn : path = new
  case pos =>
    subst hpn
    have he : movedFrom old path path = some old := by simp [movedFrom]
    rw [he, hm', AList.lookup_insert, Option.bind_some, hm]
    exact ⟨fun node => by simp [hnew], rfl⟩
  case neg =>
    by_cases hpo : path = old
    case pos =>
      subst hpo
      have he : movedFrom path new path = none := by simp [movedFrom, hap.right]
      rw [he, hm', AList.lookup_insert_ne hpn, AList.lookup_erase, Option.bind_none]
      exact ⟨fun node => by simp [hold], rfl⟩
    case neg =>
      rw [hm', AList.lookup_insert_ne hpn, AList.lookup_erase_ne hpo]
      simp only [hother path hpo hpn, movedFrom]
      split
      case isTrue hp =>
        have hr : renamed new old path ≠ old := fun he => hpn (by rw [← @renamed_renamed _ old _ hp, he, renamed_self])
        have hleft (node : Node) : ¬fs.Has path node := hbeneath hn hp hpn
        have hright (node : Node) : ¬fs.Has (renamed new old path) node := hbeneath ho prefix_renamed hr
        rw [h.metadata_none hleft, Option.bind_some, h.metadata_none hright]
        exact ⟨fun node => by simp [hleft, hright], rfl⟩
      case isFalse =>
        split
        case isTrue hp =>
          have hleft (node : Node) : ¬fs.Has path node := hbeneath ho hp hpo
          rw [h.metadata_none hleft, Option.bind_none]
          exact ⟨fun node => by simp [hleft], rfl⟩
        case isFalse => exact ⟨fun node => by simp, rfl⟩

end Single

theorem WellFormed.metadata_some (h : fs.WellFormed) (hs : fs.Has path node) :
    ∃ metadata, fs.metadata.lookup path = some metadata :=
  mem_table_iff.mp ((h.metadata path).mpr ⟨node, hs⟩)

-- The files that do not have the new name, and their names.
theorem WellFormed.names_erase (h : fs.WellFormed) (path : MemPath) : path ∈ fs.fileNames.erase new ↔
    ∃ file ∈ fs.files.filter (fun file : MemFileName => file.name ≠ new), file.name = path := by
  rw [AList.mem_erase, h.names]
  constructor
  case mp =>
    intro ⟨hne, file, hm, he⟩
    exact ⟨file, List.mem_filter.mpr ⟨hm, by simpa [he] using hne⟩, he⟩
  case mpr =>
    intro ⟨file, hm, he⟩
    have ⟨hm, hne⟩ := List.mem_filter.mp hm
    exact ⟨by simpa [he] using hne, file, hm, he⟩

-- What moving an object that is not a directory comes to.
structure MovedTo (fs : MemFileSystem) (old new : MemPath) (fs' : MemFileSystem) : Prop where
  moved : fs.Moved old new fs'
  names : ∀ path, path ∈ fs'.fileNames ↔ ∃ file ∈ fs'.files, file.name = path
  nodup : (fs'.files.map MemFileName.name).Nodup

theorem renameSpecial_moved (h : fs.WellFormed) (hap : Apart old new) {kind : MemSpecialKind}
    (hs : fs.Has old (.special kind)) (hn : ¬fs.Has new .directory) :
    ∃ fs', fs.renameSpecial old new kind = (.ok (), fs') ∧ fs.MovedTo old new fs' := by
  have ⟨metadata, hm⟩ := h.metadata_some hs
  have hne : old ≠ new := fun he => hap.left (he ▸ List.prefix_refl _)
  have ho : ¬fs.Has old .directory := fun hd => nomatch h.one _ _ _ hs hd
  have hd : fs.isDir new = false := by simpa [isDir, Has] using hn
  have hold (node : Node) (hnode : fs.Has old node) : node = .special kind := h.one _ _ _ hnode hs
  simp only [isDir] at hd
  simp only [renameSpecial, isDir, hd, metadataOrAlloc, hm, Bool.false_eq_true, if_false, moveMetadata]
  refine ⟨_, rfl, moved_single h hap ho hn ?_ ?_ ?_ ⟨metadata, hm, rfl⟩, ?_, ?_⟩
  case refine_1 =>
    intro node
    cases node
    case directory => exact iff_of_false hn ho
    case file => simpa [Has] using fun hf => nomatch hold (.file _ _) hf
    case symlink => simpa [Has] using fun hf => nomatch hold (.symlink _) hf
    case special => simp [Has, show fs.specials.lookup old = some kind from hs]
  case refine_2 =>
    intro node hnode
    cases node
    case directory => exact ho hnode
    case file => exact nomatch hold (.file _ _) (List.mem_of_mem_filter hnode)
    case symlink => simp [Has, AList.lookup_erase_ne hne] at hnode; exact nomatch hold (.symlink _) hnode
    case special => simp [Has, AList.lookup_insert_ne hne, AList.lookup_erase_ne hne] at hnode
  case refine_3 =>
    intro path hpo hpn node
    cases node <;> simp [Has, AList.lookup_insert_ne hpn, AList.lookup_erase_ne hpn, AList.lookup_erase_ne hpo, hpn]
  case refine_4 => exact h.names_erase
  case refine_5 => exact h.nodup.sublist (List.filter_sublist.map _)

-- A special node at the new path would stay.
theorem renameSymlink_moved (h : fs.WellFormed) (hap : Apart old new) {target : String}
    (hs : fs.Has old (.symlink target)) (hn : ¬fs.Has new .directory) (hk : fs.specials.lookup new = none) :
    ∃ fs', fs.renameSymlink old new target = (.ok (), fs') ∧ fs.MovedTo old new fs' := by
  have ⟨metadata, hm⟩ := h.metadata_some hs
  have hne : old ≠ new := fun he => hap.left (he ▸ List.prefix_refl _)
  have ho : ¬fs.Has old .directory := fun hd => nomatch h.one _ _ _ hs hd
  have hd : fs.isDir new = false := by simpa [isDir, Has] using hn
  have hold (node : Node) (hnode : fs.Has old node) : node = .symlink target := h.one _ _ _ hnode hs
  simp only [isDir] at hd
  simp only [renameSymlink, isDir, hd, metadataOrAlloc, hm, Bool.false_eq_true, if_false, moveMetadata]
  refine ⟨_, rfl, moved_single h hap ho hn ?_ ?_ ?_ ⟨metadata, hm, rfl⟩, ?_, ?_⟩
  case refine_1 =>
    intro node
    cases node
    case directory => exact iff_of_false hn ho
    case file => simpa [Has] using fun hf => nomatch hold (.file _ _) hf
    case symlink => simp [Has, show fs.symlinks.lookup old = some target from hs]
    case special => simpa [Has, hk] using fun hf => nomatch hold (.special _) hf
  case refine_2 =>
    intro node hnode
    cases node
    case directory => exact ho hnode
    case file => exact nomatch hold (.file _ _) (List.mem_of_mem_filter hnode)
    case symlink => simp [Has, AList.lookup_insert_ne hne, AList.lookup_erase_ne hne] at hnode
    case special => exact nomatch hold (.special _) hnode
  case refine_3 =>
    intro path hpo hpn node
    cases node <;> simp [Has, AList.lookup_insert_ne hpn, AList.lookup_erase_ne hpn, AList.lookup_erase_ne hpo, hpn]
  case refine_4 => exact h.names_erase
  case refine_5 => exact h.nodup.sublist (List.filter_sublist.map _)

theorem renameFile_moved (h : fs.WellFormed) (hap : Apart old new) {backing : Nat} {linkKey : MemPath}
    (hs : fs.Has old (.file backing linkKey)) (hn : ¬fs.Has new .directory) :
    ∃ fs', fs.renameFile old new = (.ok (), fs') ∧ fs.MovedTo old new fs' := by
  have ⟨metadata, hm⟩ := h.metadata_some hs
  have hne : old ≠ new := fun he => hap.left (he ▸ List.prefix_refl _)
  have ho : ¬fs.Has old .directory := fun hd => nomatch h.one _ _ _ hs hd
  have hd : fs.isDir new = false := by simpa [isDir, Has] using hn
  have hold (node : Node) (hnode : fs.Has old node) : node = .file backing linkKey := h.one _ _ _ hnode hs
  have hfind : fs.files.find? (·.name = old) = some ⟨old, backing, linkKey⟩ := by
    cases hf : fs.files.find? (·.name = old)
    case none => simpa using List.find?_eq_none.mp hf _ hs
    case some file =>
      have hname : file.name = old := by simpa using List.find?_some hf
      subst hname
      cases hold (.file file.backing file.linkKey) (List.mem_of_find?_eq_some hf)
      rfl
  simp only [isDir] at hd
  simp only [renameFile, hfind, isDir, hd, metadataOrAlloc, hm, Bool.false_eq_true, if_false, moveMetadata]
  refine ⟨_, rfl, moved_single h hap ho hn ?_ ?_ ?_ ⟨metadata, hm, rfl⟩, ?_, ?_⟩
  case refine_1 =>
    intro node
    cases node
    case directory => exact iff_of_false hn ho
    case file backing' linkKey' =>
      constructor
      case mp =>
        intro hf
        have ⟨_, hb, hl⟩ : new = new ∧ backing' = backing ∧ linkKey' = linkKey := by simpa [Has] using hf
        rw [hb, hl]
        exact hs
      case mpr =>
        intro hf
        cases hold _ hf
        simp [Has]
    case symlink => simpa [Has] using fun hf => nomatch hold (.symlink _) hf
    case special => simpa [Has] using fun hf => nomatch hold (.special _) hf
  case refine_2 =>
    intro node hnode
    cases node
    case directory => exact ho hnode
    case file => simp [Has, hne] at hnode
    case symlink =>
      simp [Has, AList.lookup_erase_ne hne] at hnode
      exact nomatch hold (.symlink _) hnode
    case special =>
      simp [Has, AList.lookup_erase_ne hne] at hnode
      exact nomatch hold (.special _) hnode
  case refine_3 =>
    intro path hpo hpn node
    cases node <;> simp [Has, AList.lookup_erase_ne hpn, hpn, hpo]
  case refine_4 =>
    intro path
    simp only [AList.mem_insert, AList.mem_erase, h.names, List.mem_append, List.mem_filter, List.mem_singleton,
      decide_eq_true_eq]
    constructor
    case mp =>
      intro hp
      obtain hp | ⟨hpn, hpo, file, hm, he⟩ := hp
      case inl => exact ⟨_, .inr rfl, hp.symm⟩
      case inr => exact ⟨file, .inl ⟨hm, by rw [he]; exact ⟨hpo, hpn⟩⟩, he⟩
    case mpr =>
      intro ⟨file, hm, he⟩
      obtain ⟨hm, hpo, hpn⟩ | hm := hm
      case inl => exact .inr ⟨by rwa [← he], by rwa [← he], file, hm, he⟩
      case inr =>
        subst hm
        exact .inl he.symm
  case refine_5 =>
    rw [List.map_append, List.nodup_append]
    refine ⟨h.nodup.sublist (List.filter_sublist.map _), by simp, fun name hm name' hm' he => ?_⟩
    have ⟨file, hf, hname⟩ := List.mem_map.mp hm
    have hnew : name' = new := by simpa using hm'
    have hkeep : file.name ≠ old ∧ file.name ≠ new := by simpa using (List.mem_filter.mp hf).right
    exact hkeep.right (by rw [hname, he, hnew])

theorem Via.refl (fs : MemFileSystem) : fs.Via some fs :=
  ⟨by simp, by simp⟩

theorem Via.congr {fs₀ : MemFileSystem} {source : MemPath → Option MemPath} (hv : fs₀.Via source fs')
    (hs : ∀ path origin, source path = some origin → (∀ node, fs₀.Has origin node ↔ fs.Has origin node) ∧
      fs₀.metadata.lookup origin = fs.metadata.lookup origin) : fs.Via source fs' where
  has path node := by
    rw [hv.has]
    refine exists_congr fun origin => and_congr_right fun he => (hs path origin he).left node
  metadata path := by
    rw [hv.metadata]
    cases he : source path
    case none => rfl
    case some origin => exact (hs path origin he).right

theorem movedFrom_ne (hap : Apart old new) {origin : MemPath} (h : movedFrom old new path = some origin) :
    ¬new <+: origin := by
  simp only [movedFrom] at h
  split at h
  case isTrue =>
    cases h
    exact hap.not_both prefix_renamed
  case isFalse hn =>
    split at h <;> cases h
    exact hn

theorem movedFrom_new : movedFrom old new new = some old := by
  simp [movedFrom]

theorem movedFrom_old (hap : Apart old new) : movedFrom old new old = none := by
  simp [movedFrom, hap.right]

-- A directory moves to where nothing is, or in place of an empty directory.
theorem renameDir_moved (h : fs.WellFormed) (hap : Apart old new) (ho : old ≠ []) (hne : new ≠ [])
    (hs : fs.Has old .directory) (hn : ∀ node, fs.Has new node → node = .directory)
    (hempty : ∀ path node, new <+: path → path ≠ new → ¬fs.Has path node) :
    ∃ fs', fs.renameDir old new = (.ok (), fs') ∧ fs.MovedTo old new fs' := by
  have hold (node : Node) (hnode : fs.Has old node) : node = .directory := h.one _ _ _ hnode hs
  rw [renameDir, if_neg hne]
  by_cases hd : fs.isDir new
  case pos =>
    have hentries : ¬fs.dirHasEntries new := by
      rw [dirHasEntries_iff hne]
      intro ⟨child, node, hp, hc, hnode⟩
      exact hempty child node hp hc hnode
    rw [if_pos hd, if_neg hentries]
    have hon : old ≠ new := fun he => hap.left (he ▸ List.prefix_refl _)
    generalize hfs₀ : { fs with dirs := fs.dirs.erase new, metadata := fs.metadata.erase new } = fs₀
    have hsame (path : MemPath) (hp : path ≠ new) : (∀ node, fs₀.Has path node ↔ fs.Has path node) ∧
        fs₀.metadata.lookup path = fs.metadata.lookup path := by
      subst hfs₀
      refine ⟨fun node => ?_, AList.lookup_erase_ne hp⟩
      cases node <;> simp [Has, hp]
    have hvacant : fs₀.Vacant new := by
      refine ⟨fun path node hp => ?_, fun path hp => ?_⟩
      · by_cases he : path = new
        case pos =>
          subst he hfs₀
          intro hnode
          cases node
          case directory => simp [Has] at hnode
          case file => exact nomatch hn (.file _ _) hnode
          case symlink => exact nomatch hn (.symlink _) hnode
          case special => exact nomatch hn (.special _) hnode
        case neg =>
          rw [(hsame path he).left]
          exact hempty path node hp he
      · by_cases he : path = new
        case pos =>
          subst he hfs₀
          exact AList.lookup_erase _ _
        case neg =>
          rw [(hsame path he).right]
          exact h.metadata_none fun node => hempty path node hp he
    have hmoved := renameTree_moved ho hvacant hap fun node hnode => hold node (((hsame old hon).left node).mp hnode)
    refine ⟨_, rfl, hmoved.congr fun path origin he => hsame origin ?_, fun path => renameTree_names, ?_⟩
    · exact fun hc => movedFrom_ne hap he (hc ▸ List.prefix_refl _)
    · refine renameTree_nodup hvacant ?_
      subst hfs₀
      exact h.nodup
  case neg =>
    have hnone (node : Node) : ¬fs.Has new node := fun hnode => by
      cases hn node hnode
      exact hd (decide_eq_true hnode)
    have he : ¬fs.exists new := by
      rw [h.exists_iff]
      exact fun ⟨node, hnode⟩ => hnone node hnode
    rw [if_neg hd, if_neg he]
    have hchild (path : MemPath) (hp : new <+: path) (node : Node) : ¬fs.Has path node := by
      by_cases hc : path = new
      case pos => exact hc ▸ hnone node
      case neg => exact hempty path node hp hc
    have hvacant : fs.Vacant new :=
      ⟨fun path node hp => hchild path hp node, fun path hp => h.metadata_none (hchild path hp)⟩
    exact ⟨_, rfl, renameTree_moved ho hvacant hap hold, fun path => renameTree_names, renameTree_nodup hvacant h.nodup⟩

theorem isDir_iff : fs.isDir path ↔ fs.Has path .directory := by
  simp [isDir, Has]

-- An object that is not a directory is moved rightly if the other is not a name of the same file.
theorem exact_of_moved (hne : old ≠ new) (hap : Apart old new) (h : fs.WellFormed) (hs : fs.Has old node)
    (ho : ¬fs.Has old .directory) (hn : ¬fs.Has new .directory) (hm : fs.Moved old new fs') :
    fs.RenameExact old new (.ok (), fs') ↔ ¬fs.SameFile old new := by
  rw [RenameExact, if_neg hne]
  constructor
  case mp =>
    intro ⟨hsame, _⟩ hf
    have ⟨origin, he, _⟩ := (hm.has old node).mp (((hsame hf).has old node).mpr ⟨old, rfl, hs⟩)
    rw [movedFrom_old hap] at he
    cases he
  case mpr =>
    intro hf
    refine ⟨fun hf' => absurd hf' hf, fun _ => ⟨⟨node, hs⟩, ⟨fun _ _ => iff_of_false ho hn, fun path node hp hc => ?_⟩, hm⟩⟩
    exact h.nothing_beneath hn hp hc

-- What goes wrong goes wrong with two objects that are not directories.
theorem Misses.nodes (h : fs.WellFormed) (hm : fs.Misses old new) : old ≠ new ∧
    (∃ node, fs.Has old node) ∧ (∃ node, fs.Has new node) ∧ ¬fs.Has old .directory ∧ ¬fs.Has new .directory := by
  have ⟨hne, hm⟩ := hm
  obtain ⟨ho, hn, hs, hs', _⟩ | ⟨⟨target, hs⟩, kind, hs'⟩ := hm
  case inl => exact ⟨hne, hs, hs', ho, hn⟩
  case inr =>
    exact ⟨hne, ⟨_, hs⟩, ⟨_, hs'⟩, (fun hd => nomatch h.one _ _ _ hs hd), (fun hd => nomatch h.one _ _ _ hs' hd)⟩

-- A symbolic link does not take the place of a special node.
theorem renameSymlink_stays (hne : old ≠ new) {target : String} {kind : MemSpecialKind}
    (h : fs.WellFormed) (hs : fs.Has old (.symlink target)) (hk : fs.Has new (.special kind)) :
    ¬fs.RenameExact old new (fs.renameSymlink old new target) := by
  have ⟨metadata, hm⟩ := h.metadata_some hs
  have hd : fs.isDir new = false := Bool.eq_false_iff.mpr fun hd => nomatch h.one _ _ _ hk (isDir_iff.mp hd)
  simp only [isDir] at hd
  simp only [renameSymlink, isDir, hd, metadataOrAlloc, hm, Bool.false_eq_true, if_false, moveMetadata]
  rw [RenameExact, if_neg hne]
  intro ⟨hsame, hmoved⟩
  by_cases hf : fs.SameFile old new
  case pos =>
    have hlink := ((hsame hf).has old (.symlink target)).mpr ⟨old, rfl, hs⟩
    simp [Has, AList.lookup_insert_ne hne, AList.lookup_erase_ne hne] at hlink
  case neg =>
    have ⟨_, _, hmoved⟩ := hmoved hf
    have ⟨origin, he, hspecial⟩ := (hmoved.has new (.special kind)).mp hk
    cases movedFrom_new.symm.trans he
    cases h.one _ _ _ hs hspecial

theorem renameDir_exact (h : fs.WellFormed) (hne : old ≠ new) (ho : old ≠ []) (hd : ¬isDescendant old new)
    (hs : fs.Has old .directory) : fs.RenameExact old new (fs.renameDir old new) := by
  by_cases hroom : new ≠ [] ∧ (∀ node, fs.Has new node → node = .directory) ∧
      ∀ path node, new <+: path → path ≠ new → ¬fs.Has path node
  case pos =>
    have ⟨hroot, hn, hempty⟩ := hroom
    have hap : Apart old new :=
      ⟨fun hp => hd (isDescendant_iff.mpr ⟨ho, hp, hne⟩), fun hp => hempty old .directory hp hne hs⟩
    have ⟨fs', he, hm⟩ := renameDir_moved h hap ho hroot hs hn hempty
    rw [he, RenameExact, if_neg hne]
    refine ⟨fun hf => absurd hs hf.left, fun _ => ⟨⟨_, hs⟩, ⟨fun node hnode => iff_of_true hs ?_, hempty⟩, hm.moved⟩⟩
    rw [← hn node hnode]
    exact hnode
  case neg =>
    suffices herror : ∃ err, fs.renameDir old new = (.error err, fs) by
      have ⟨err, he⟩ := herror
      rw [he]
      exact Via.refl fs
    rw [renameDir]
    split
    case isTrue => exact ⟨_, rfl⟩
    case isFalse hroot =>
      split
      case isTrue hdir =>
        split
        case isTrue => exact ⟨_, rfl⟩
        case isFalse hentries =>
          rw [dirHasEntries_iff hroot] at hentries
          refine absurd ⟨hroot, fun node hnode => h.one _ _ _ hnode (isDir_iff.mp hdir), ?_⟩ hroom
          exact fun path node hp hc hnode => hentries ⟨path, node, hp, hc, hnode⟩
      case isFalse hdir =>
        split
        case isTrue => exact ⟨_, rfl⟩
        case isFalse hexists =>
          rw [h.exists_iff] at hexists
          refine absurd ⟨hroot, fun node hnode => absurd ⟨node, hnode⟩ hexists, ?_⟩ hroom
          exact fun path node hp hc => h.nothing_beneath (mt isDir_iff.mpr hdir) hp hc

theorem renameSpecial_refused {kind : MemSpecialKind} (hs : fs.Has old (.special kind)) (hn : fs.Has new .directory) :
    ∃ fs', fs.renameSpecial old new kind = (.error .EISDIR, fs') ∧ fs.Unchanged fs' := by
  have hd : new ∈ fs.dirs := hn
  simp only [renameSpecial, isDir, hd, decide_true, if_true]
  refine ⟨_, rfl, fun path node => ?_, fun _ => rfl⟩
  cases node
  case special kind' =>
    have hs : fs.specials.lookup old = some kind := hs
    by_cases he : path = old
    case pos =>
      subst he
      simp [Has, hs]
    case neg => simp [Has, AList.lookup_insert_ne he, AList.lookup_erase_ne he]
  all_goals simp [Has]

theorem renameSymlink_refused {target : String} (hs : fs.Has old (.symlink target)) (hn : fs.Has new .directory) :
    ∃ fs', fs.renameSymlink old new target = (.error .EISDIR, fs') ∧ fs.Unchanged fs' := by
  have hd : new ∈ fs.dirs := hn
  simp only [renameSymlink, isDir, hd, decide_true, if_true]
  refine ⟨_, rfl, fun path node => ?_, fun _ => rfl⟩
  cases node
  case symlink target' =>
    have hs : fs.symlinks.lookup old = some target := hs
    by_cases he : path = old
    case pos =>
      subst he
      simp [Has, hs]
    case neg => simp [Has, AList.lookup_insert_ne he, AList.lookup_erase_ne he]
  all_goals simp [Has]

theorem renameNonDir_exact (h : fs.WellFormed) (hne : old ≠ new) (ho : old ≠ []) (hd : ¬isDescendant old new)
    (hdir : ¬fs.Has old .directory) : fs.RenameExact old new (fs.renameNonDir old new) ↔ ¬fs.Misses old new := by
  have hrefused (hn : fs.Has new .directory) : ¬fs.Misses old new := fun hm => by
    have ⟨_, _, _, _, hn'⟩ := hm.nodes h
    exact hn' hn
  have hap {node : Node} (hs : fs.Has old node) (hn : ¬fs.Has new .directory) : Apart old new :=
    ⟨fun hp => hd (isDescendant_iff.mpr ⟨ho, hp, hne⟩), fun hp => hn (h.above hs hp (Ne.symm hne))⟩
  have hmoved {node : Node} {fs' : MemFileSystem} (hs : fs.Has old node) (hn : ¬fs.Has new .directory)
      (hm : fs.MovedTo old new fs')
      (hlink : ∀ target kind, fs.Has old (.symlink target) → ¬fs.Has new (.special kind)) :
      fs.RenameExact old new (.ok (), fs') ↔ ¬fs.Misses old new := by
    rw [exact_of_moved hne (hap hs hn) h hs hdir hn hm.moved, not_iff_not]
    refine ⟨fun hf => ⟨hne, .inl hf⟩, fun hm => hm.right.elim id fun ⟨⟨target, hs⟩, kind, hk⟩ => ?_⟩
    exact absurd hk (hlink target kind hs)
  rw [renameNonDir]
  split
  case h_1 kind hk =>
    have hs : fs.Has old (.special kind) := hk
    by_cases hn : fs.Has new .directory
    case pos =>
      have ⟨fs', he, hu⟩ := renameSpecial_refused hs hn
      rw [he]
      exact iff_of_true hu (hrefused hn)
    case neg =>
      have ⟨fs', he, hm⟩ := renameSpecial_moved h (hap hs hn) hs hn
      rw [he]
      exact hmoved hs hn hm fun target kind hl => nomatch h.one _ _ _ hs hl
  case h_2 hk =>
    split
    case h_1 target hl =>
      have hs : fs.Has old (.symlink target) := hl
      by_cases hn : fs.Has new .directory
      case pos =>
        have ⟨fs', he, hu⟩ := renameSymlink_refused hs hn
        rw [he]
        exact iff_of_true hu (hrefused hn)
      case neg =>
        cases hkind : fs.specials.lookup new
        case none =>
          have ⟨fs', he, hm⟩ := renameSymlink_moved h (hap hs hn) hs hn hkind
          rw [he]
          exact hmoved hs hn hm fun target kind _ hspecial => nomatch hkind.symm.trans hspecial
        case some kind =>
          refine iff_of_false (renameSymlink_stays hne h hs hkind) (not_not.mpr ⟨hne, .inr ⟨⟨target, hs⟩, kind, hkind⟩⟩)
    case h_2 hl =>
      cases hf : fs.files.find? (·.name = old)
      case none =>
        rw [renameFile, hf]
        refine iff_of_true (Via.refl fs) fun hm => ?_
        have ⟨_, ⟨node, hs⟩, _, _, _⟩ := hm.nodes h
        cases node
        case directory => exact hdir hs
        case file => simpa using List.find?_eq_none.mp hf _ hs
        case symlink => exact nomatch hl.symm.trans hs
        case special => exact nomatch hk.symm.trans hs
      case some file =>
        have hname : file.name = old := by simpa using List.find?_some hf
        have hs : fs.Has old (.file file.backing file.linkKey) := by
          subst hname
          exact List.mem_of_find?_eq_some hf
        by_cases hn : fs.Has new .directory
        case pos =>
          rw [renameFile, hf]
          dsimp only
          rw [if_pos (isDir_iff.mpr hn)]
          exact iff_of_true (Via.refl fs) (hrefused hn)
        case neg =>
          have ⟨fs', he, hm⟩ := renameFile_moved h (hap hs hn) hs hn
          rw [he]
          exact hmoved hs hn hm fun target kind hlink => nomatch h.one _ _ _ hs hlink

theorem rename_exact_iff (h : fs.WellFormed) :
    fs.RenameExact old new (fs.renamePath old new) ↔ ¬fs.Misses old new := by
  have hunchanged (err : SysErrNo) (hm : ¬fs.Misses old new) :
      fs.RenameExact old new (.error err, fs) ↔ ¬fs.Misses old new := iff_of_true (Via.refl fs) hm
  rw [renamePath]
  split
  case isTrue he =>
    refine iff_of_true ?_ fun hm => hm.left he
    rw [RenameExact, if_pos he]
    exact Via.refl fs
  case isFalse hne =>
    split
    case isTrue hinv =>
      refine hunchanged _ fun hm => ?_
      have ⟨_, _, ⟨node, hs⟩, ho, _⟩ := hm.nodes h
      obtain he | hd := hinv
      case inl => exact ho (he ▸ h.root)
      case inr =>
        have ⟨_, hp, _⟩ := isDescendant_iff.mp hd
        exact h.nothing_beneath ho hp (Ne.symm hne) hs
    case isFalse hinv =>
      have ⟨ho, hd⟩ := not_or.mp hinv
      split
      case isTrue hparent =>
        refine hunchanged _ fun hm => ?_
        have ⟨_, _, ⟨node, hs⟩, _, hn⟩ := hm.nodes h
        exact hparent (isDir_iff.mpr (h.parent new node hs fun he => hn (he ▸ h.root)))
      case isFalse hparent =>
        split
        case isTrue hdir =>
          have hdir := isDir_iff.mp hdir
          refine iff_of_true (renameDir_exact h hne ho hd hdir) fun hm => ?_
          have ⟨_, _, _, hno, _⟩ := hm.nodes h
          exact hno hdir
        case isFalse hdir => exact renameNonDir_exact h hne ho hd (mt isDir_iff.mpr hdir)

section Exchange

theorem Via.trans {source source' : MemPath → Option MemPath} (h : fs.Via source fs') (h' : fs'.Via source' fs'') :
    fs.Via (fun path => (source' path).bind source) fs'' where
  has path node := by
    rw [h'.has]
    simp only [h.has, Option.bind_eq_some_iff]
    constructor
    case mp =>
      intro ⟨middle, hm, origin, ho, hs⟩
      exact ⟨origin, ⟨middle, hm, ho⟩, hs⟩
    case mpr =>
      intro ⟨origin, ⟨middle, hm, ho⟩, hs⟩
      exact ⟨middle, hm, origin, ho, hs⟩
  metadata path := by
    rw [h'.metadata, Option.bind_assoc]
    exact Option.bind_congr fun middle _ => h.metadata middle

-- A path without a source may as well have one where nothing is.
theorem Via.source_congr {source source' : MemPath → Option MemPath} (h : fs.Via source fs')
    (hs : ∀ path, source path = source' path ∨ source path = none ∧ ∃ origin, source' path = some origin ∧
      (∀ node, ¬fs.Has origin node) ∧ fs.metadata.lookup origin = none) : fs.Via source' fs' where
  has path node := by
    rw [h.has]
    obtain he | ⟨hn, origin, he, hv, _⟩ := hs path
    case inl => rw [he]
    case inr => simp [hn, he, hv]
  metadata path := by
    rw [h.metadata]
    obtain he | ⟨hn, origin, he, _, hv⟩ := hs path
    case inl => rw [he]
    case inr => simp [hn, he, hv]

-- Where nothing is, all that is at a path can be moved to.
theorem rename_free (h : fs.WellFormed) (hs : fs.Has old node) (ho : old ≠ []) (hne : new ≠ [])
    (hfree : ∀ node, ¬fs.Has new node) (hon : ¬old <+: new) (hp : fs.Has (parentPath new) .directory) :
    ∃ fs', fs.renamePath old new = (.ok (), fs') ∧ fs.Moved old new fs' ∧ fs'.WellFormed := by
  have hon' : old ≠ new := fun he => hfree node (he ▸ hs)
  have hap : Apart old new := ⟨hon, fun hb => hfree .directory (h.above hs hb (Ne.symm hon'))⟩
  have hinv : ¬(old = [] ∨ isDescendant old new) :=
    not_or.mpr ⟨ho, fun hd => hon (isDescendant_iff.mp hd).right.left⟩
  suffices hmoved : ∃ fs', fs.renamePath old new = (.ok (), fs') ∧ fs.MovedTo old new fs' by
    have ⟨fs', he, hm⟩ := hmoved
    exact ⟨fs', he, hm.moved, hm.moved.wellFormed h hap ho hne hp hm.names hm.nodup⟩
  rw [renamePath, if_neg hon', if_neg hinv, if_neg (not_not.mpr (isDir_iff.mpr hp))]
  have hone {node' : Node} (hs' : fs.Has old node') : node' = node := h.one old node' node hs' hs
  cases node
  case directory =>
    rw [if_pos (isDir_iff.mpr hs)]
    exact renameDir_moved h hap ho hne hs (fun node hn => absurd hn (hfree node)) fun path node hb hc =>
      h.nothing_beneath (hfree .directory) hb hc
  case special kind =>
    have he : fs.renameNonDir old new = fs.renameSpecial old new kind := by
      rw [renameNonDir, show fs.specials.lookup old = some kind from hs]
    have hdir : ¬fs.isDir old := fun hd => nomatch hone (isDir_iff.mp hd)
    rw [if_neg hdir, he]
    exact renameSpecial_moved h hap hs (hfree _)
  case symlink target =>
    have hk : fs.specials.lookup old = none :=
      Option.eq_none_iff_forall_ne_some.mpr fun kind hk => nomatch @hone (.special kind) hk
    have hfree' : fs.specials.lookup new = none :=
      Option.eq_none_iff_forall_ne_some.mpr fun kind hk => hfree (.special kind) hk
    have he : fs.renameNonDir old new = fs.renameSymlink old new target := by
      rw [renameNonDir, hk, show fs.symlinks.lookup old = some target from hs]
    have hdir : ¬fs.isDir old := fun hd => nomatch hone (isDir_iff.mp hd)
    rw [if_neg hdir, he]
    exact renameSymlink_moved h hap hs (hfree _) hfree'
  case file backing linkKey =>
    have hk : fs.specials.lookup old = none :=
      Option.eq_none_iff_forall_ne_some.mpr fun kind hk => nomatch @hone (.special kind) hk
    have hl : fs.symlinks.lookup old = none :=
      Option.eq_none_iff_forall_ne_some.mpr fun target hl => nomatch @hone (.symlink target) hl
    have he : fs.renameNonDir old new = fs.renameFile old new := by rw [renameNonDir, hk, hl]
    have hdir : ¬fs.isDir old := fun hd => nomatch hone (isDir_iff.mp hd)
    rw [if_neg hdir, he]
    exact renameFile_moved h hap hs (hfree _)

theorem swappedFrom_eq {temp : MemPath} (hap : Apart old new) (hot : Apart old temp) (hnt : Apart new temp)
    (hfree : ∀ path node, temp <+: path → ¬fs.Has path node)
    (hmetadata : ∀ path, temp <+: path → fs.metadata.lookup path = none) (path : MemPath) :
    let source := (movedFrom temp new path).bind fun path => (movedFrom new old path).bind (movedFrom old temp)
    source = swappedFrom old new path ∨ source = none ∧ ∃ origin, swappedFrom old new path = some origin ∧
      (∀ node, ¬fs.Has origin node) ∧ fs.metadata.lookup origin = none := by
  have hunder {old new rest : MemPath} (h : Apart old new) : ¬old <+: new ++ rest :=
    h.symm.not_both (List.prefix_append _ _)
  simp only [swappedFrom]
  by_cases hn : new <+: path
  case pos =>
    have ⟨rest, he⟩ := hn
    subst he
    simp [movedFrom, hunder hot, hunder hnt]
  case neg =>
    by_cases ht : temp <+: path
    case pos =>
      have ho : ¬old <+: path := hot.symm.not_both ht
      refine .inr ⟨by simp [movedFrom, hn, ht], path, by simp [hn, ho], fun node => hfree path node ht, hmetadata path ht⟩
    case neg =>
      by_cases ho : old <+: path
      case pos =>
        have ⟨rest, he⟩ := ho
        subst he
        simp [movedFrom, hn, ht, hunder hap, hunder hnt.symm]
      case neg => simp [movedFrom, hn, ht, ho]

-- The name in between is beside the old one.
theorem exchangeName_spec {temp : MemPath} (ht : fs.exchangeName old = some temp) :
    (∃ name, temp = parentPath old ++ [name]) ∧ ¬fs.exists temp := by
  have hfree := List.find?_some ht
  have ⟨attempt, _, he⟩ := List.mem_map.mp (List.mem_of_find?_eq_some ht)
  exact ⟨⟨_, he.symm⟩, by simpa using hfree⟩

theorem has_of_moved (hm : fs.Moved old new fs') (ho : ¬old <+: path) (hn : ¬new <+: path) :
    fs'.Has path node ↔ fs.Has path node := by
  rw [hm.has, movedFrom, if_neg hn, if_neg ho]
  simp

-- The three steps of an exchange succeed, and swap the two objects.
theorem exchange_steps (h : fs.WellFormed) (hap : Apart old new) (ho : old ≠ []) (hn : new ≠ []) (hs : fs.Has old node)
    (hs' : fs.Has new node') {temp : MemPath} (ht : fs.exchangeName old = some temp) :
    ∃ fs₁ fs₂ fs₃, fs.renamePath old temp = (.ok (), fs₁) ∧ fs₁.renamePath new old = (.ok (), fs₂) ∧
      fs₂.renamePath temp new = (.ok (), fs₃) ∧ fs.Swapped old new fs₃ := by
  have ⟨⟨name, hname⟩, hexists⟩ := exchangeName_spec ht
  rw [h.exists_iff] at hexists
  have hfree (node : Node) : ¬fs.Has temp node := fun hnode => hexists ⟨node, hnode⟩
  have hbeneath (path : MemPath) (node : Node) (hp : temp <+: path) : ¬fs.Has path node := by
    by_cases he : path = temp
    case pos => exact he ▸ hfree node
    case neg => exact h.nothing_beneath (hfree .directory) hp he
  have htemp : temp ≠ [] := by simp [hname]
  have hparent : parentPath temp = parentPath old := by simp [hname, parentPath]
  have hlast {path : MemPath} {node : Node} (hs : fs.Has path node) (hp : path <+: temp) : path <+: parentPath old := by
    rw [hname, List.prefix_concat_iff] at hp
    refine hp.resolve_left fun he => hfree node ?_
    rw [hname, ← he]
    exact hs
  have hot : Apart old temp :=
    ⟨fun hp => not_prefix_parentPath ho (hlast hs hp), fun hp => hbeneath old node hp hs⟩
  have hnt : Apart new temp :=
    ⟨fun hp => hap.right ((hlast hs' hp).trans (List.dropLast_prefix old)), fun hp => hbeneath new node' hp hs'⟩
  have hdir : fs.Has (parentPath new) .directory := h.parent new node' hs' hn
  have ⟨fs₁, he₁, hm₁, h₁⟩ := rename_free h hs ho htemp hfree hot.left (hparent ▸ h.parent old node hs ho)
  have hs₁ : fs₁.Has temp node := (hm₁.has temp node).mpr ⟨old, movedFrom_new, hs⟩
  have hs₁' : fs₁.Has new node' := (has_of_moved hm₁ hap.left hnt.right).mpr hs'
  have hfree₁ (node : Node) : ¬fs₁.Has old node := by
    rw [hm₁.has, movedFrom_old hot]
    simp
  have ⟨fs₂, he₂, hm₂, h₂⟩ := rename_free h₁ hs₁' hn ho hfree₁ hap.right (hparent ▸ h₁.parent temp node hs₁ htemp)
  have hs₂ : fs₂.Has temp node := (has_of_moved hm₂ hnt.left hot.left).mpr hs₁
  have hfree₂ (node : Node) : ¬fs₂.Has new node := by
    rw [hm₂.has, movedFrom_old hap.symm]
    simp
  have hdir₂ : fs₂.Has (parentPath new) .directory := by
    have hup {path : MemPath} (hp : path <+: parentPath new) : path <+: new := hp.trans (List.dropLast_prefix new)
    rw [has_of_moved hm₂ (not_prefix_parentPath hn) fun hp => hap.left (hup hp),
      has_of_moved hm₁ (fun hp => hap.left (hup hp)) fun hp => hnt.right (hup hp)]
    exact hdir
  have ⟨fs₃, he₃, hm₃, _⟩ := rename_free h₂ hs₂ htemp hn hfree₂ hnt.right hdir₂
  refine ⟨fs₁, fs₂, fs₃, he₁, he₂, he₃, ?_⟩
  refine ((hm₁.trans hm₂).trans hm₃).source_congr fun path => ?_
  exact swappedFrom_eq hap hot hnt (fun path node hp => hbeneath path node hp)
    (fun path hp => h.metadata_none fun node => hbeneath path node hp) path

theorem exchange_exact (h : fs.WellFormed) : fs.ExchangeExact old new (fs.exchangePath old new) := by
  have hunchanged (err : SysErrNo) : fs.ExchangeExact old new (.error err, fs) := Via.refl fs
  rw [exchangePath]
  split
  case isTrue he =>
    subst he
    refine (Via.refl fs).source_congr fun path => .inl ?_
    simp only [swappedFrom]
    split
    case isTrue hp => rw [renamed, List.prefix_iff_eq_append.mp hp]
    case isFalse => rfl
  case isFalse hne =>
    split
    case isTrue => exact hunchanged _
    case isFalse hroot =>
      have ⟨ho, hn⟩ := not_or.mp hroot
      split
      case isTrue => exact hunchanged _
      case isFalse hexists =>
        rw [not_or, not_not, not_not, h.exists_iff, h.exists_iff] at hexists
        have ⟨⟨node, hs⟩, ⟨node', hs'⟩⟩ := hexists
        split
        case isTrue => exact hunchanged _
        case isFalse hon =>
          split
          case isTrue => exact hunchanged _
          case isFalse hno =>
            have hap : Apart old new := by
              refine ⟨fun hp => hon ⟨?_, ?_⟩, fun hp => hno ⟨?_, ?_⟩⟩
              · exact isDir_iff.mpr (h.above hs' hp hne)
              · exact isDescendant_iff.mpr ⟨ho, hp, hne⟩
              · exact isDir_iff.mpr (h.above hs hp (Ne.symm hne))
              · exact isDescendant_iff.mpr ⟨hn, hp, Ne.symm hne⟩
            cases ht : fs.exchangeName old
            case none => exact hunchanged _
            case some temp =>
              have ⟨fs₁, fs₂, fs₃, he₁, he₂, he₃, hswapped⟩ := exchange_steps h hap ho hn hs hs' ht
              dsimp only
              rw [he₁]
              dsimp only
              rw [he₂]
              dsimp only
              rw [he₃]
              exact hswapped

end Exchange

theorem renames_exact_iff (h : fs.WellFormed) :
    (fs.RenameExact old new (fs.renamePath old new) ∧ fs.ExchangeExact old new (fs.exchangePath old new)) ↔
      ¬fs.Misses old new := by
  rw [and_iff_left (exchange_exact h)]
  exact rename_exact_iff h

-- A tree with one object of each kind.
def sample : MemFileSystem where
  files := [⟨["d", "f"], 0, ["d", "f"]⟩]
  fileNames := ⟨[⟨["d", "f"], ()⟩], by simp [List.NodupKeys, List.keys]⟩
  dirs := ⟨[⟨[], ()⟩, ⟨["d"], ()⟩], by simp [List.NodupKeys, List.keys]⟩
  symlinks := ⟨[⟨["l"], "d"⟩], by simp [List.NodupKeys, List.keys]⟩
  specials := ⟨[⟨["p"], .fifo⟩], by simp [List.NodupKeys, List.keys]⟩
  metadata := ⟨[⟨[], ⟨0o755, 0, 0, 1, 0⟩⟩, ⟨["d"], ⟨0o755, 0, 0, 2, 0⟩⟩, ⟨["d", "f"], ⟨0o644, 0, 0, 3, 0⟩⟩,
    ⟨["l"], ⟨0o777, 0, 0, 4, 0⟩⟩, ⟨["p"], ⟨0o644, 0, 0, 5, 0⟩⟩], by simp [List.NodupKeys, List.keys]⟩
  nextIno := 6

-- What is where in it.
def sampleNodes : List (MemPath × Node) :=
  [([], .directory), (["d"], .directory), (["d", "f"], .file 0 ["d", "f"]), (["l"], .symlink "d"),
    (["p"], .special .fifo)]

theorem has_sample {node : Node} : sample.Has path node ↔ (path, node) ∈ sampleNodes := by
  cases node
  case directory => simp [Has, sample, sampleNodes, AList.mem_keys, AList.keys]
  case file => simp [Has, sample, sampleNodes]
  case symlink target =>
    have hl := @AList.mem_lookup_iff _ _ _ path target sample.symlinks
    simp only [Option.mem_def] at hl
    rw [Has, hl]
    simp [sample, sampleNodes]
  case special kind =>
    have hl := @AList.mem_lookup_iff _ _ _ path kind sample.specials
    simp only [Option.mem_def] at hl
    rw [Has, hl]
    simp [sample, sampleNodes]

theorem sample_wellFormed : sample.WellFormed where
  names path := by simp [sample, AList.mem_keys, AList.keys, eq_comm]
  nodup := by decide
  root := has_sample.mpr (by simp [sampleNodes])
  one path node node' hs hs' := by
    rw [has_sample] at hs hs'
    simp only [sampleNodes, List.mem_cons, Prod.mk.injEq, List.not_mem_nil, or_false] at hs hs'
    aesop
  parent path node hs hr := by
    rw [has_sample] at hs ⊢
    simp only [sampleNodes, List.mem_cons, Prod.mk.injEq, List.not_mem_nil, or_false] at hs ⊢
    aesop
  metadata path := by
    simp only [has_sample]
    simp [sample, sampleNodes, AList.mem_keys, AList.keys]
    aesop

theorem renames_exact_sample : sample.RenameExact ["d"] ["e"] (sample.renamePath ["d"] ["e"]) ∧
    sample.ExchangeExact ["d"] ["e"] (sample.exchangePath ["d"] ["e"]) := by
  refine (renames_exact_iff sample_wellFormed).mpr fun hm => ?_
  have ⟨_, _, _, ho, _⟩ := hm.nodes sample_wellFormed
  exact ho (has_sample.mpr (by simp [sampleNodes]))

-- A symbolic link is renamed to a name that a pipe has.
theorem renamePath_not_exact : ¬∀ (fs : MemFileSystem) (old new : MemPath), fs.WellFormed →
    fs.RenameExact old new (fs.renamePath old new) ∧ fs.ExchangeExact old new (fs.exchangePath old new) := by
  intro h
  have hn := rename_exact_iff sample_wellFormed |>.mp (h sample ["l"] ["p"] sample_wellFormed).left
  refine hn ⟨by decide, .inr ⟨⟨"d", ?_⟩, .fifo, ?_⟩⟩
  · exact has_sample.mpr (by simp [sampleNodes])
  · exact has_sample.mpr (by simp [sampleNodes])

end WllOs.Fs.MemFileSystem
