import WllOs.Fs.Ext4Namespace

namespace WllOs.Fs

theorem not_dots_mem_normalizePath (path : List String) :
    "." ∉ normalizePath path ∧ ".." ∉ normalizePath path := by
  suffices h : ∀ parts : HostPath String, "." ∉ parts ∧ ".." ∉ parts →
      "." ∉ path.foldl (fun parts part => if part = "" ∨ part = "." then parts
        else if part = ".." then parts.dropLast else parts ++ [part]) parts ∧
      ".." ∉ path.foldl (fun parts part => if part = "" ∨ part = "." then parts
        else if part = ".." then parts.dropLast else parts ++ [part]) parts by
    exact h [] (by simp)
  induction path
  case nil => exact fun parts hp => hp
  case cons part path hi =>
    intro parts hp
    rw [List.foldl_cons]
    refine hi _ ?_
    split
    case isTrue => exact hp
    case isFalse hd =>
      split
      case isTrue =>
        exact ⟨fun h => hp.left (List.mem_of_mem_dropLast h), fun h => hp.right (List.mem_of_mem_dropLast h)⟩
      case isFalse hdd =>
        simp only [List.mem_append, List.mem_singleton, not_or]
        exact ⟨⟨hp.left, fun h => hd (.inr h.symm)⟩, hp.right, fun h => hdd h.symm⟩

theorem splitParentName_concat {directory : HostPath String} {name : String} :
    splitParentName (directory ++ [name]) = .ok (directory, name) := by
  simp [splitParentName]

theorem splitParentName_ok {path directory : HostPath String} {name : String}
    (h : splitParentName path = .ok (directory, name)) : path = directory ++ [name] := by
  cases path using List.reverseRecOn
  case nil => cases h
  case append_singleton start last _ =>
    rw [splitParentName_concat] at h
    cases h
    rfl

theorem pathIsDescendant_iff {parent child : HostPath String} :
    pathIsDescendant parent child ↔ parent <+: child ∧ parent ≠ child := by
  simp [pathIsDescendant]

namespace Ext4Inodes

variable {inodes : Ext4Inodes} {parent d child c ino : Nat} {name n : String} {total : Nat} {p : String × Nat → Bool}

section Fields

variable {α : Type} {field : Ext4Inode → α}

theorem field_update (h : ∀ inode entries, field { inode with entries } = field inode) {entries : List (String × Nat)} :
    field (Function.update inodes parent { inodes parent with entries } ino) = field (inodes ino) := by
  by_cases hi : ino = parent
  case pos =>
    rw [hi, Function.update_self]
    exact h _ _
  case neg => rw [Function.update_of_ne hi]

@[simp] theorem kind_addEntry : (inodes.addEntry parent name child ino).kind = (inodes ino).kind :=
  field_update fun _ _ => rfl

@[simp] theorem kind_removeEntry : (inodes.removeEntry parent name ino).kind = (inodes ino).kind :=
  field_update fun _ _ => rfl

@[simp] theorem linksCount_addEntry : (inodes.addEntry parent name child ino).linksCount = (inodes ino).linksCount :=
  field_update fun _ _ => rfl

@[simp] theorem linksCount_removeEntry : (inodes.removeEntry parent name ino).linksCount = (inodes ino).linksCount :=
  field_update fun _ _ => rfl

@[simp] theorem data_addEntry : (inodes.addEntry parent name child ino).data = (inodes ino).data :=
  field_update fun _ _ => rfl

@[simp] theorem data_removeEntry : (inodes.removeEntry parent name ino).data = (inodes ino).data :=
  field_update fun _ _ => rfl

theorem entries_addEntry : (inodes.addEntry parent name child parent).entries =
    (inodes parent).entries ++ [(name, child)] := by
  simp [addEntry]

theorem entries_addEntry_of_ne (h : ino ≠ parent) :
    (inodes.addEntry parent name child ino).entries = (inodes ino).entries := by
  simp [addEntry, h]

theorem entries_removeEntry : (inodes.removeEntry parent name parent).entries =
    (inodes parent).entries.eraseP (·.fst = name) := by
  simp [removeEntry]

theorem entries_removeEntry_of_ne (h : ino ≠ parent) :
    (inodes.removeEntry parent name ino).entries = (inodes ino).entries := by
  simp [removeEntry, h]

theorem field_setLinksCount (h : ∀ inode linksCount, field { inode with linksCount } = field inode) {links : Nat} :
    field (inodes.setLinksCount parent links ino) = field (inodes ino) := by
  by_cases hi : ino = parent
  case pos =>
    rw [hi, setLinksCount, Function.update_self]
    exact h _ _
  case neg => rw [setLinksCount, Function.update_of_ne hi]

@[simp] theorem entries_setLinksCount {links : Nat} :
    (inodes.setLinksCount parent links ino).entries = (inodes ino).entries :=
  field_setLinksCount fun _ _ => rfl

@[simp] theorem kind_setLinksCount {links : Nat} : (inodes.setLinksCount parent links ino).kind = (inodes ino).kind :=
  field_setLinksCount fun _ _ => rfl

theorem field_setData (h : ∀ inode data, field { inode with data } = field inode) {data : List UInt8} :
    field (inodes.setData parent data ino) = field (inodes ino) := by
  by_cases hi : ino = parent
  case pos =>
    rw [hi, setData, Function.update_self]
    exact h _ _
  case neg => rw [setData, Function.update_of_ne hi]

@[simp] theorem entries_setData {data : List UInt8} : (inodes.setData parent data ino).entries = (inodes ino).entries :=
  field_setData fun _ _ => rfl

theorem entries_flushCachedIno {fs : Ext4Namespace} :
    ((fs.flushCachedIno child).inodes ino).entries = (fs.inodes ino).entries :=
  entries_setData

end Fields

theorem mem_entries_addEntry {entry : String × Nat} : entry ∈ (inodes.addEntry parent name child ino).entries ↔
    entry ∈ (inodes ino).entries ∨ ino = parent ∧ entry = (name, child) := by
  by_cases h : ino = parent
  case pos =>
    subst h
    simp [entries_addEntry]
  case neg => simp [entries_addEntry_of_ne h, h]

theorem mem_of_mem_removeEntry {entry : String × Nat} (h : entry ∈ (inodes.removeEntry parent name ino).entries) :
    entry ∈ (inodes ino).entries := by
  by_cases hi : ino = parent
  case pos =>
    subst hi
    rw [entries_removeEntry] at h
    exact List.mem_of_mem_eraseP h
  case neg => rwa [entries_removeEntry_of_ne hi] at h

theorem mem_removeEntry_of_ne {entry : String × Nat} (h : entry ∈ (inodes ino).entries)
    (hn : ¬(ino = parent ∧ entry.fst = name)) : entry ∈ (inodes.removeEntry parent name ino).entries := by
  by_cases hi : ino = parent
  case pos =>
    subst hi
    rw [entries_removeEntry, List.mem_eraseP_of_neg (by simpa using hn)]
    exact h
  case neg => rwa [entries_removeEntry_of_ne hi]

theorem not_mem_removeEntry (hd : ((inodes parent).entries.map Prod.fst).Nodup) :
    (name, c) ∉ (inodes.removeEntry parent name parent).entries := by
  rw [entries_removeEntry]
  generalize (inodes parent).entries = entries at hd ⊢
  induction entries
  case nil => simp
  case cons entry entries hi =>
    rw [List.map_cons, List.nodup_cons] at hd
    by_cases he : entry.fst = name
    case pos =>
      rw [List.eraseP_cons_of_pos (by simpa using he)]
      exact fun h => hd.left (he ▸ List.mem_map_of_mem h)
    case neg =>
      rw [List.eraseP_cons_of_neg (by simpa using he), List.mem_cons, not_or]
      exact ⟨fun h => he (congrArg Prod.fst h).symm, hi hd.right⟩

theorem nodup_addEntry (hd : ((inodes ino).entries.map Prod.fst).Nodup)
    (h : ∀ c, (name, c) ∉ (inodes parent).entries) :
    ((inodes.addEntry parent name child ino).entries.map Prod.fst).Nodup := by
  by_cases hi : ino = parent
  case pos =>
    subst hi
    rw [entries_addEntry, List.map_append, List.nodup_append]
    refine ⟨hd, List.nodup_singleton _, ?_⟩
    intro n hn m hm he
    have ⟨entry, hmem, hn⟩ := List.mem_map.mp hn
    rw [List.map_singleton, List.mem_singleton] at hm
    have hname : entry.fst = name := by rw [hn, he, hm]
    exact h entry.snd (hname ▸ hmem)
  case neg => rwa [entries_addEntry_of_ne hi]

theorem nodup_removeEntry (hd : ((inodes ino).entries.map Prod.fst).Nodup) :
    ((inodes.removeEntry parent name ino).entries.map Prod.fst).Nodup := by
  by_cases hi : ino = parent
  case pos =>
    subst hi
    rw [entries_removeEntry]
    exact hd.sublist (List.eraseP_sublist.map _)
  case neg => rwa [entries_removeEntry_of_ne hi]

theorem names_addEntry (hn : name ≠ "." ∧ name ≠ "..") : (inodes.addEntry parent name child).Names d n c ↔
    inodes.Names d n c ∨ d = parent ∧ n = name ∧ c = child := by
  simp only [Names, mem_entries_addEntry, Prod.mk.injEq]
  constructor
  case mp => exact fun h => h.left.imp (⟨·, h.right⟩) id
  case mpr =>
    rintro (h | ⟨rfl, rfl, rfl⟩)
    case inl => exact ⟨.inl h.left, h.right⟩
    case inr => exact ⟨.inr ⟨rfl, rfl, rfl⟩, hn⟩

-- The `..` of a directory is not one of the names.
theorem names_addEntry_dots : (inodes.addEntry parent ".." child).Names d n c ↔ inodes.Names d n c := by
  simp only [Names, mem_entries_addEntry, Prod.mk.injEq]
  constructor
  case mp => exact fun h => ⟨h.left.resolve_right fun hn => h.right.right hn.right.left, h.right⟩
  case mpr => exact fun h => ⟨.inl h.left, h.right⟩

theorem Names.of_removeEntry (h : (inodes.removeEntry parent name).Names d n c) : inodes.Names d n c :=
  ⟨mem_of_mem_removeEntry h.left, h.right⟩

theorem Names.removeEntry (h : inodes.Names d n c) (hn : ¬(d = parent ∧ n = name)) :
    (inodes.removeEntry parent name).Names d n c :=
  ⟨mem_removeEntry_of_ne h.left hn, h.right⟩

theorem names_removeEntry (hd : ((inodes parent).entries.map Prod.fst).Nodup) :
    (inodes.removeEntry parent name).Names d n c ↔ inodes.Names d n c ∧ ¬(d = parent ∧ n = name) := by
  constructor
  case mp =>
    intro h
    refine ⟨h.of_removeEntry, ?_⟩
    rintro ⟨rfl, rfl⟩
    exact not_mem_removeEntry hd h.left
  case mpr => exact fun h => h.left.removeEntry h.right

theorem names_removeEntry_dots : (inodes.removeEntry parent "..").Names d n c ↔ inodes.Names d n c :=
  ⟨Names.of_removeEntry, fun h => h.removeEntry fun hn => h.right.right hn.right⟩

theorem names_setLinksCount {links : Nat} : (inodes.setLinksCount ino links).Names d n c ↔ inodes.Names d n c := by
  rw [Names, Names, entries_setLinksCount]

theorem Names.of_truncate (h : (inodes.truncate ino).Names d n c) : inodes.Names d n c := by
  by_cases hi : d = ino
  case pos =>
    rw [Names, truncate, hi, Function.update_self] at h
    cases h.left
  case neg => rwa [Names, truncate, Function.update_of_ne hi] at h

-- A name leads to a single inode.
theorem eq_of_mem {entries : List (String × Nat)} (hd : (entries.map Prod.fst).Nodup) (h : (n, c) ∈ entries)
    (h' : (n, child) ∈ entries) : c = child := by
  have := List.inj_on_of_nodup_map hd h h' rfl
  exact (Prod.mk.inj this).right

section Count

theorem count_congr {inodes' : Ext4Inodes} (h : ∀ ino, (inodes' ino).entries.Perm (inodes ino).entries) :
    inodes'.count total p = inodes.count total p :=
  Finset.sum_congr rfl fun ino _ => (h ino).countP_eq _

theorem count_addEntry (h : parent < total) :
    (inodes.addEntry parent name child).count total p = inodes.count total p + if p (name, child) then 1 else 0 := by
  rw [count, count, ← Finset.sum_erase_add _ _ (Finset.mem_range.mpr h), ← Finset.sum_erase_add (Finset.range total) _
    (Finset.mem_range.mpr h), entries_addEntry, List.countP_append, List.countP_singleton, Nat.add_assoc]
  refine congrArg (· + _) (Finset.sum_congr rfl fun ino hi => ?_)
  rw [entries_addEntry_of_ne (Finset.ne_of_mem_erase hi)]

-- The first entry of the name is taken out.
theorem count_removeEntry (h : parent < total) (hm : (name, c) ∈ (inodes parent).entries) :
    ∃ child, (name, child) ∈ (inodes parent).entries ∧ ∀ p,
      inodes.count total p = (inodes.removeEntry parent name).count total p + if p (name, child) then 1 else 0 := by
  have ⟨entry, start, rest, _, hentry, he, her⟩ :=
    List.exists_of_eraseP (p := fun entry : String × Nat => decide (entry.fst = name)) hm (by simp)
  obtain ⟨n, child⟩ := entry
  simp only [decide_eq_true_eq] at hentry
  subst hentry
  refine ⟨child, by rw [he]; simp, fun p => ?_⟩
  rw [count, count, ← Finset.sum_erase_add _ _ (Finset.mem_range.mpr h), ← Finset.sum_erase_add (Finset.range total) _
    (Finset.mem_range.mpr h), entries_removeEntry, her, he, Nat.add_assoc]
  have hs : ∑ ino ∈ (Finset.range total).erase parent, (inodes ino).entries.countP p =
      ∑ ino ∈ (Finset.range total).erase parent, (inodes.removeEntry parent n ino).entries.countP p :=
    Finset.sum_congr rfl fun ino hi => by rw [entries_removeEntry_of_ne (Finset.ne_of_mem_erase hi)]
  rw [hs, List.countP_append, List.countP_append, List.countP_cons]
  omega

theorem count_le_removeEntry (h : parent < total) :
    inodes.count total p ≤ (inodes.removeEntry parent name).count total p + 1 := by
  by_cases hm : ∃ c, (name, c) ∈ (inodes parent).entries
  case pos =>
    have ⟨c, hm⟩ := hm
    have ⟨child, _, hc⟩ := count_removeEntry h hm
    rw [hc p]
    split <;> omega
  case neg =>
    refine Nat.le_add_right_of_le (Nat.le_of_eq (Finset.sum_congr rfl fun ino _ => ?_))
    by_cases hi : ino = parent
    case pos =>
      rw [hi, entries_removeEntry, List.eraseP_of_forall_not]
      intro entry he hn
      exact hm ⟨entry.snd, (of_decide_eq_true hn) ▸ he⟩
    case neg => rw [entries_removeEntry_of_ne hi]

end Count

-- The only entry of a kind is taken out and put back.
theorem perm_cons_eraseP {α : Type} {p : α → Bool} {a : α} {xs : List α} (hm : a ∈ xs) (ha : p a)
    (h : ∀ x ∈ xs, p x → x = a) : (a :: xs.eraseP p).Perm xs := by
  have ⟨x, start, rest, _, hx, hxs, he⟩ := List.exists_of_eraseP hm ha
  rw [← h x (by simp [hxs]) hx, he, hxs]
  exact List.perm_middle.symm

-- An entry gets another name for a while.
theorem perm_taken_back {entries : List (String × Nat)} {temp : String} (hd : (entries.map Prod.fst).Nodup)
    (hm : (name, c) ∈ entries) (ht : ∀ c, (temp, c) ∉ entries) (hne : temp ≠ name) :
    ((((entries ++ [(temp, c)]).eraseP (·.fst = name)) ++ [(name, c)]).eraseP (·.fst = temp)).Perm entries := by
  have haway : ((name, c) :: (entries ++ [(temp, c)]).eraseP (·.fst = name)).Perm (entries ++ [(temp, c)]) := by
    refine perm_cons_eraseP (List.mem_append_left _ hm) (decide_eq_true rfl) fun entry he hn => ?_
    have hn := of_decide_eq_true hn
    cases List.mem_append.mp he
    case inl he =>
      subst hn
      exact Prod.ext rfl (eq_of_mem hd he hm)
    case inr he =>
      cases List.mem_singleton.mp he
      exact absurd hn hne
  have htemp : (temp, c) ∈ (entries ++ [(temp, c)]).eraseP (·.fst = name) := by
    have := haway.mem_iff.mpr (List.mem_append_right _ (List.mem_singleton_self _))
    exact (List.mem_cons.mp this).resolve_left fun he => hne (congrArg Prod.fst he)
  have hback := perm_cons_eraseP (p := fun entry : String × Nat => decide (entry.fst = temp))
    (List.mem_append_left [(name, c)] htemp) (decide_eq_true rfl) fun entry he hn => by
      have hn := of_decide_eq_true hn
      cases List.mem_append.mp he
      case inl he =>
        cases List.mem_append.mp (List.mem_of_mem_eraseP he)
        case inl he => exact absurd (hn ▸ he) (ht entry.snd)
        case inr he => exact List.mem_singleton.mp he
      case inr he =>
        cases List.mem_singleton.mp he
        exact absurd hn.symm hne
  have hall := hback.trans ((List.perm_append_singleton _ _).trans (haway.trans (List.perm_append_singleton _ _)))
  exact hall.cons_inv

end Ext4Inodes

namespace Ext4Namespace

open Ext4Inodes

variable {fs fs' : Ext4Namespace} {parent ino d c child : Nat} {name : String} {path directory : HostPath String}

theorem walk_cons {rest : HostPath String} (h : rest ≠ []) : fs.walk ino (name :: rest) =
    match fs.findChildIno ino name with
    | none       => none
    | some child => if (fs.inodes child).kind = .directory then fs.walk child rest else none := by
  cases rest
  case nil => exact absurd rfl h
  case cons => rfl

theorem walk_concat_of (h : (fs.inodes ino).kind = .directory) : fs.walk ino (path ++ [name]) =
    match fs.walk ino path with
    | none   => none
    | some d => if (fs.inodes d).kind = .directory then fs.findChildIno d name else none := by
  induction path generalizing ino
  case nil => simp [walk, h]
  case cons first rest hi =>
    rw [List.cons_append, walk_cons (List.append_ne_nil_of_right_ne_nil _ (List.cons_ne_nil _ _))]
    cases rest
    case nil =>
      rw [walk]
      cases fs.findChildIno ino first
      case none => rfl
      case some child => rfl
    case cons second rest =>
      rw [walk_cons (List.cons_ne_nil _ _)]
      cases fs.findChildIno ino first
      case none => rfl
      case some child =>
        by_cases hk : (fs.inodes child).kind = .directory
        case pos =>
          simp only [if_pos hk]
          exact hi hk
        case neg => simp only [if_neg hk]

theorem mem_cachedDirEntries {entry : String × Nat} :
    entry ∈ fs.cachedDirEntries ino ↔ entry ∈ fs.seen ino ∧ entry.fst ≠ "." ∧ entry.fst ≠ ".." := by
  simp [cachedDirEntries]

-- What is looked up depends on what is seen, and on the kinds.
theorem resolveExisting_congr (hs : fs'.seen = fs.seen) (hk : ∀ ino, (fs'.inodes ino).kind = (fs.inodes ino).kind) :
    fs'.resolveExisting path = fs.resolveExisting path := by
  have hf (ino : Nat) (name : String) : fs'.findChildIno ino name = fs.findChildIno ino name := by
    rw [findChildIno, findChildIno, cachedDirEntries, cachedDirEntries, hs]
  have hw : ∀ ino, fs'.walk ino path = fs.walk ino path := by
    induction path
    case nil => exact fun _ => rfl
    case cons name rest hi =>
      intro ino
      by_cases hr : rest = []
      case pos =>
        subst hr
        rw [walk, walk, hf]
      case neg =>
        rw [walk_cons hr, walk_cons hr, hf]
        simp only [hk, hi]
  rw [resolveExisting, resolveExisting, hw]
  simp only [hk]

theorem resolveExisting_eq_some {kind : Ext4NodeKind} : fs.resolveExisting path = some (ino, kind) ↔
    fs.walk ROOT_INODE path = some ino ∧ kind = (fs.inodes ino).kind := by
  rw [resolveExisting, Option.map_eq_some_iff]
  constructor
  case mp =>
    rintro ⟨_, hw, he⟩
    cases he
    exact ⟨hw, rfl⟩
  case mpr =>
    rintro ⟨hw, rfl⟩
    exact ⟨_, hw, rfl⟩

theorem resolveExisting_eq_none : fs.resolveExisting path = none ↔ fs.walk ROOT_INODE path = none :=
  Option.map_eq_none_iff

theorem resolveParent_ok (hr : fs.resolveParent path = .ok (parent, name)) : ∃ directory,
    path = directory ++ [name] ∧ fs.walk ROOT_INODE directory = some parent ∧ (fs.inodes parent).kind = .directory := by
  simp only [resolveParent] at hr
  cases hs : splitParentName path
  case error => simp [hs] at hr
  case ok split =>
    obtain ⟨directory, last⟩ := split
    simp only [hs] at hr
    cases hd : fs.resolveExisting directory
    case none => simp [hd] at hr
    case some found =>
      obtain ⟨ino, kind⟩ := found
      have ⟨hw, hk⟩ := resolveExisting_eq_some.mp hd
      simp only [hd] at hr
      by_cases hkd : kind = .directory
      case pos =>
        rw [if_neg (not_not.mpr hkd)] at hr
        cases hr
        exact ⟨directory, splitParentName_ok hs, hw, hk.symm.trans hkd⟩
      case neg =>
        rw [if_pos hkd] at hr
        cases hr

namespace Coherent

variable (h : fs.Coherent)
include h

theorem findChildIno_eq_some : fs.findChildIno parent name = some c ↔ fs.inodes.Names parent name c := by
  rw [findChildIno, Option.map_eq_some_iff]
  constructor
  case mp =>
    rintro ⟨entry, hf, rfl⟩
    have hm := mem_cachedDirEntries.mp (List.mem_of_find?_eq_some hf)
    have hn : entry.fst = name := by simpa using List.find?_some hf
    rw [h.seen] at hm
    subst hn
    exact hm
  case mpr =>
    intro hn
    have hm : (name, c) ∈ fs.cachedDirEntries parent := mem_cachedDirEntries.mpr ⟨h.seen parent ▸ hn.left, hn.right⟩
    cases hf : (fs.cachedDirEntries parent).find? (·.fst = name)
    case none => exact absurd (List.find?_eq_none.mp hf _ hm) (by simp)
    case some entry =>
      refine ⟨entry, rfl, ?_⟩
      have hn' : entry.fst = name := by simpa using List.find?_some hf
      have hm' := (mem_cachedDirEntries.mp (List.mem_of_find?_eq_some hf)).left
      rw [h.seen] at hm'
      subst hn'
      exact eq_of_mem (h.tree.nodup parent) hm' hn.left

theorem walk_concat : fs.walk ROOT_INODE (path ++ [name]) = some c ↔
    ∃ d, fs.walk ROOT_INODE path = some d ∧ (fs.inodes d).kind = .directory ∧ fs.inodes.Names d name c := by
  rw [walk_concat_of h.tree.root]
  cases hw : fs.walk ROOT_INODE path
  case none => simp
  case some d =>
    by_cases hk : (fs.inodes d).kind = .directory
    case pos => simp [hk, h.findChildIno_eq_some]
    case neg => simp [hk]

-- There is a single path to a directory.
theorem walk_unique {path' : HostPath String} (hp : fs.walk ROOT_INODE path = some d)
    (hp' : fs.walk ROOT_INODE path' = some d) (hk : (fs.inodes d).kind = .directory) : path = path' := by
  induction path using List.reverseRecOn generalizing path' d
  case nil =>
    cases hp
    cases path' using List.reverseRecOn
    case nil => rfl
    case append_singleton start name _ =>
      have ⟨parent, _, _, hn⟩ := h.walk_concat.mp hp'
      exact absurd hn (h.tree.unnamed parent name)
  case append_singleton start name hi =>
    have ⟨parent, hw, hkp, hn⟩ := h.walk_concat.mp hp
    cases path' using List.reverseRecOn
    case nil =>
      cases hp'
      exact absurd hn (h.tree.unnamed parent name)
    case append_singleton start' name' _ =>
      have ⟨parent', hw', _, hn'⟩ := h.walk_concat.mp hp'
      obtain ⟨rfl, rfl⟩ := h.tree.single _ _ _ _ _ hn hn' hk
      rw [hi hw hw' hkp]

-- What is on the way to a file is a directory.
theorem walk_append {rest : HostPath String} (hr : rest ≠ []) (hw : fs.walk ROOT_INODE (path ++ rest) = some c) :
    ∃ d, fs.walk ROOT_INODE path = some d ∧ (fs.inodes d).kind = .directory := by
  induction rest using List.reverseRecOn generalizing c
  case nil => exact absurd rfl hr
  case append_singleton rest name hi =>
    rw [← List.append_assoc] at hw
    have ⟨d, hw, hk, _⟩ := h.walk_concat.mp hw
    by_cases hr : rest = []
    case pos =>
      subst hr
      exact ⟨d, by simpa using hw, hk⟩
    case neg => exact hi hr hw

theorem names_of_resolve {kind : Ext4NodeKind} (hp : fs.resolveParent path = .ok (parent, name))
    (hr : fs.resolveExisting path = some (c, kind)) : fs.inodes.Names parent name c ∧ kind = (fs.inodes c).kind := by
  obtain ⟨directory, rfl, hw, hk⟩ := resolveParent_ok hp
  have ⟨hwc, hkind⟩ := resolveExisting_eq_some.mp hr
  obtain ⟨d, hwd, _, hn⟩ := h.walk_concat.mp hwc
  cases hw.symm.trans hwd
  exact ⟨hn, hkind⟩

theorem not_names_of_resolve (hp : fs.resolveParent path = .ok (parent, name)) (hr : fs.resolveExisting path = none) :
    ¬fs.inodes.Names parent name c := by
  obtain ⟨directory, rfl, hw, hk⟩ := resolveParent_ok hp
  intro hn
  rw [resolveExisting_eq_none] at hr
  cases hr.symm.trans (h.walk_concat.mpr ⟨parent, hw, hk, hn⟩)

theorem unlinkTarget_ok (ht : fs.unlinkTarget path = .ok (parent, name, c)) :
    fs.inodes.Names parent name c ∧ (fs.inodes c).kind ≠ .directory ∧ (fs.inodes parent).kind = .directory := by
  simp only [unlinkTarget] at ht
  cases hp : fs.resolveParent path
  case error => simp [hp] at ht
  case ok place =>
    obtain ⟨ino, last⟩ := place
    simp only [hp] at ht
    cases hr : fs.resolveExisting path
    case none => simp [hr] at ht
    case some found =>
      obtain ⟨child, kind⟩ := found
      simp only [hr] at ht
      by_cases hk : kind = .directory
      case pos =>
        rw [if_pos hk] at ht
        cases ht
      case neg =>
        rw [if_neg hk] at ht
        cases ht
        have ⟨_, _, _, hkp⟩ := resolveParent_ok hp
        have ⟨hn, hkind⟩ := h.names_of_resolve hp hr
        exact ⟨hn, hkind ▸ hk, hkp⟩

theorem createTarget_ok (hdot : "." ∉ path ∧ ".." ∉ path) (ht : fs.createTarget path = .ok (parent, name)) :
    (fs.inodes parent).kind = .directory ∧ (name ≠ "." ∧ name ≠ "..") ∧ ∀ c, ¬fs.inodes.Names parent name c := by
  simp only [createTarget] at ht
  cases hp : fs.resolveParent path
  case error => simp [hp] at ht
  case ok place =>
    obtain ⟨ino, last⟩ := place
    simp only [hp] at ht
    have ⟨hr, ht⟩ := Fallible.guard_ok ht
    cases ht
    obtain ⟨directory, rfl, hw, hk⟩ := resolveParent_ok hp
    simp only [List.mem_append, List.mem_singleton, not_or] at hdot
    refine ⟨hk, ⟨Ne.symm hdot.left.right, Ne.symm hdot.right.right⟩, fun c => h.not_names_of_resolve hp ?_⟩
    simpa using hr

end Coherent

end Ext4Namespace

end WllOs.Fs
