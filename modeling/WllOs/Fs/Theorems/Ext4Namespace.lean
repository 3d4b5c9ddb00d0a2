import WllOs.Fs.Theorems.Ext4Tree

namespace WllOs.Fs

open Faults Program Ext4Inodes

variable {fs fs' : Ext4Namespace} {faults : Nat → Option SysErrNo} {err : SysErrNo} {n m : Nat}
variable {parent child ino d c : Nat} {name : String} {path : HostPath String}

section Calls

theorem dirAddEntry_error (h : dirAddEntry parent name child faults fs n = ⟨.error err, fs', m⟩) :
    faults n = some err ∧ fs' = fs ∧ m = n + 1 :=
  call_error h

theorem dirAddEntry_ok (h : dirAddEntry parent name child faults fs n = ⟨.ok (), fs', m⟩) :
    faults n = none ∧ fs' = fs.withInodes (·.addEntry parent name child) ∧ m = n + 1 :=
  call_ok h

theorem dirRemoveEntry_eq (h : (name, c) ∈ (fs.inodes parent).entries) :
    dirRemoveEntry parent name faults fs n = call (·.withInodes (·.removeEntry parent name)) faults fs n := by
  have ha : ¬(fs.inodes parent).entries.all (·.fst ≠ name) := by
    rw [List.all_eq_true]
    exact fun ha => of_decide_eq_true (ha _ h) rfl
  simp only [dirRemoveEntry, get_bind, if_neg ha, lift_ok_bind]

theorem dirRemoveEntry_missing (h : ∀ c, (name, c) ∉ (fs.inodes parent).entries) :
    dirRemoveEntry parent name faults fs n = ⟨.error .ENOENT, fs, n⟩ := by
  have ha : (fs.inodes parent).entries.all (·.fst ≠ name) := by
    rw [List.all_eq_true]
    intro entry hm
    exact decide_eq_true fun he => h entry.snd (he ▸ hm)
  simp only [dirRemoveEntry, get_bind, if_pos ha, lift_error_bind]

theorem dirRemoveEntry_error (h : dirRemoveEntry parent name faults fs n = ⟨.error err, fs', m⟩) :
    fs' = fs ∧ ((∃ c, (name, c) ∈ (fs.inodes parent).entries) → faults n = some err) := by
  by_cases hm : ∃ c, (name, c) ∈ (fs.inodes parent).entries
  case pos =>
    have ⟨c, hm⟩ := hm
    rw [dirRemoveEntry_eq hm] at h
    have ⟨hf, hs, _⟩ := call_error h
    exact ⟨hs, fun _ => hf⟩
  case neg =>
    rw [dirRemoveEntry_missing (not_exists.mp hm)] at h
    cases h
    exact ⟨rfl, fun h => absurd h hm⟩

theorem dirRemoveEntry_ok (h : dirRemoveEntry parent name faults fs n = ⟨.ok (), fs', m⟩) :
    faults n = none ∧ fs' = fs.withInodes (·.removeEntry parent name) ∧ m = n + 1 := by
  by_cases hm : ∃ c, (name, c) ∈ (fs.inodes parent).entries
  case pos =>
    have ⟨c, hm⟩ := hm
    rw [dirRemoveEntry_eq hm] at h
    exact call_ok h
  case neg =>
    rw [dirRemoveEntry_missing (not_exists.mp hm)] at h
    cases h

end Calls

namespace Ext4Namespace

-- The directories have the same entries, and nothing else has changed that matters.
theorem WellFormed.intact_of_perm (h : fs.WellFormed)
    (he : ∀ ino, (fs'.inodes ino).entries.Perm (fs.inodes ino).entries)
    (hl : ∀ ino, (fs'.inodes ino).linksCount = (fs.inodes ino).linksCount)
    (hk : ∀ d name c, fs.inodes.Names d name c → (fs'.inodes c).kind = (fs.inodes c).kind)
    (hc : ∀ ino data, fs.regularCache ino = some data → fs'.content ino = data) : fs.Intact fs' := by
  have hn (d : Nat) (name : String) (c : Nat) : fs'.inodes.Names d name c ↔ fs.inodes.Names d name c := by
    rw [Names, Names, (he d).mem_iff]
  refine { names := hn, nameCount := fun ino => count_congr he, links := ?links, parents := ?parents, cached := hc }
  case links =>
    intro ino
    rw [hl, count_congr he]
    exact h.links ino
  case parents =>
    intro d name c hc hkind
    rw [hn] at hc
    rw [(he c).mem_iff]
    exact h.parents d name c hc (hk d name c hc ▸ hkind)

theorem WellFormed.intact_self (h : fs.WellFormed) : fs.Intact fs :=
  h.intact_of_perm (fun _ => .refl _) (fun _ => rfl) (fun _ _ _ _ => rfl) fun ino data hd => by simp [content, hd]

end Ext4Namespace

-- What is done when the entry has been removed brings no name back.
theorem keeps_not_names : Keeps (fun s => ∀ c, ¬s.inodes.Names parent name c) (truncateInode ino) ∧
    (∀ links, Keeps (fun s => ∀ c, ¬s.inodes.Names parent name c)
      (Program.modify (·.withInodes (·.setLinksCount ino links)) : Ext4Program Unit)) := by
  constructor
  case left => exact .call fun s hs c hn => hs c (Names.of_truncate hn)
  case right => exact fun links => .modify fun s hs c hn => hs c (names_setLinksCount.mp hn)

theorem not_names_of_dirRemoveEntry (hd : ((fs.inodes parent).entries.map Prod.fst).Nodup)
    (h : dirRemoveEntry parent name faults fs n = ⟨.ok (), fs', m⟩) : ∀ c, ¬fs'.inodes.Names parent name c := by
  obtain ⟨_, rfl, _⟩ := dirRemoveEntry_ok h
  exact fun c hn => not_mem_removeEntry hd hn.left

section Unlink

variable (ht : fs.unlinkTarget path = .ok (parent, name, child))
include ht

theorem unlink_error (hm : (name, child) ∈ (fs.inodes parent).entries)
    (h : unlinkNonDirLocked path faults fs 0 = ⟨.error err, fs', m⟩) :
    (fs.inodes child).linksCount > 1 ∧ (faults 0 ≠ none ∧ fs' = fs ∨
        faults 0 = none ∧ faults 1 ≠ none ∧ fs' = fs.flushCachedIno child) ∨
      (fs.inodes child).linksCount ≤ 1 ∧ (faults 0 ≠ none ∧ fs.openRegularRefs child > 0 ∧ fs' = fs ∨
        faults 0 ≠ none ∧ ¬fs.openRegularRefs child > 0 ∧ fs' = fs.discardRegularCache child ∨
        faults 0 = none ∧ ¬fs.openRegularRefs child > 0 ∧
          fs' = (fs.discardRegularCache child).withInodes (·.removeEntry parent name)) := by
  simp only [unlinkNonDirLocked, get_bind, ht, lift_ok_bind] at h
  by_cases hl : (fs.inodes child).linksCount > 1
  case pos =>
    have hle : ¬(fs.inodes child).linksCount ≤ 1 := not_le.mpr hl
    simp only [when_pos hl, when_neg (not_and_of_not_left _ hle), ok_bind] at h
    refine .inl ⟨hl, ?_⟩
    cases bind_error h
    case inl h =>
      have ⟨hf, hs, _⟩ := call_error h
      exact .inl ⟨by simp [hf], hs⟩
    case inr h =>
      have ⟨_, _, _, hx, h⟩ := h
      obtain ⟨hf, rfl, rfl⟩ := call_ok hx
      cases bind_error h
      case inl h =>
        have ⟨hs, hr⟩ := dirRemoveEntry_error h
        have hf1 := hr ⟨child, by simpa [Ext4Namespace.flushCachedIno, entries_setData] using hm⟩
        exact .inr ⟨hf, by simp [hf1], hs⟩
      case inr h =>
        have ⟨_, _, _, _, h⟩ := h
        exact absurd h (Total.not_error (.bind (.when .modify) fun _ => .bind .modify fun _ => .modify))
  case neg =>
    have hle := Nat.le_of_not_gt hl
    refine .inr ⟨hle, ?_⟩
    simp only [when_neg hl, ok_bind] at h
    by_cases hd : fs.delayDelete child
    case pos =>
      have ho : fs.openRegularRefs child > 0 := by simpa [Ext4Namespace.delayDelete, hle] using hd
      simp only [when_neg (not_and_of_not_right _ (not_not.mpr hd)),
        when_neg (not_and_of_not_right _ (not_and_of_not_left _ (not_not.mpr hd))), ok_bind] at h
      cases bind_error h
      case inl h =>
        have ⟨hs, hr⟩ := dirRemoveEntry_error h
        have hf := hr ⟨child, hm⟩
        exact .inl ⟨by simp [hf], ho, hs⟩
      case inr h =>
        have ⟨_, _, _, _, h⟩ := h
        exact absurd h (Total.not_error (.bind (.when .modify) fun _ => .bind .modify fun _ => .modify))
    case neg =>
      have ho : ¬fs.openRegularRefs child > 0 := by simpa [Ext4Namespace.delayDelete, hle] using hd
      simp only [when_pos (And.intro hle hd), modify_bind] at h
      cases bind_error h
      case inl h =>
        have ⟨hs, hr⟩ := dirRemoveEntry_error h
        have hf := hr ⟨child, hm⟩
        exact .inr (.inl ⟨by simp [hf], ho, hs⟩)
      case inr h =>
        obtain ⟨_, _, _, hx, h⟩ := h
        obtain ⟨hf, rfl, rfl⟩ := dirRemoveEntry_ok hx
        simp only [when_neg hd, ok_bind] at h
        cases bind_error h
        case inl h =>
          have ⟨_, hs, _⟩ := call_error (when_error h).right
          exact .inr (.inr ⟨hf, ho, hs⟩)
        case inr h =>
          have ⟨_, _, _, _, h⟩ := h
          exact absurd h (Total.not_error (.bind .modify fun _ => .bind .modify fun _ => .modify))

theorem unlink_ok (hd : ((fs.inodes parent).entries.map Prod.fst).Nodup)
    (h : unlinkNonDirLocked path faults fs n = ⟨.ok (), fs', m⟩) : ∀ c, ¬fs'.inodes.Names parent name c := by
  simp only [unlinkNonDirLocked, get_bind, ht, lift_ok_bind] at h
  have ⟨_, s, k, hflush, h⟩ := bind_ok h
  have ⟨_, s', k', hdiscard, h⟩ := bind_ok h
  have ⟨_, s'', k'', hremove, h⟩ := bind_ok h
  have he : (s'.inodes parent).entries = (fs.inodes parent).entries := by
    have hkf : Keeps (fun s => (s.inodes parent).entries = (fs.inodes parent).entries)
        (when ((fs.inodes child).linksCount > 1) (call (·.flushCachedIno child)) : Ext4Program Unit) :=
      .when fun _ => .call fun s hs => entries_flushCachedIno.trans hs
    have hkd : Keeps (fun s => (s.inodes parent).entries = (fs.inodes parent).entries)
        (when ((fs.inodes child).linksCount ≤ 1 ∧ ¬fs.delayDelete child)
          (Program.modify (·.discardRegularCache child)) : Ext4Program Unit) :=
      .when fun _ => .modify fun s hs => hs
    exact hkd.of_eq (hkf.of_eq rfl hflush) hdiscard
  have hs := not_names_of_dirRemoveEntry (he ▸ hd) hremove
  refine @Keeps.of_eq _ _ _ _ _ _ _ _ (fun s : Ext4Namespace => ∀ c, ¬s.inodes.Names parent name c) _ _ ?_ hs h
  refine .bind (.when fun _ => .modify fun s hs => hs) fun _ => ?_
  refine .bind (.when fun _ => keeps_not_names.left) fun _ => ?_
  refine .bind (keeps_not_names.right _) fun _ => ?_
  exact .bind (.when fun _ => .modify fun s hs => hs) fun _ => .modify fun s hs => hs

-- A call of `unlink` that succeeds has not failed.
theorem not_survives_of_ok (h : unlinkNonDirLocked path faults fs 0 = ⟨.ok (), fs', m⟩) :
    ¬fs.UnlinkSurvives faults child := by
  simp only [unlinkNonDirLocked, get_bind, ht, lift_ok_bind] at h
  obtain ⟨_, s, k, hflush, h⟩ := bind_ok h
  obtain ⟨_, s', k', hdiscard, h⟩ := bind_ok h
  obtain ⟨_, s'', k'', hremove, h⟩ := bind_ok h
  have hf := (dirRemoveEntry_ok hremove).left
  by_cases hl : (fs.inodes child).linksCount > 1
  case pos =>
    rw [when_pos hl] at hflush
    obtain ⟨h0, rfl, rfl⟩ := call_ok hflush
    rw [when_neg (not_and_of_not_left _ (not_le.mpr hl))] at hdiscard
    cases hdiscard
    rw [Ext4Namespace.UnlinkSurvives, if_pos hl]
    exact fun hs => hs.elim (fun hs => hs.right h0) fun hs => hs.right hf
  case neg =>
    rw [when_neg hl] at hflush
    cases hflush
    have hk : k' = 0 := by
      by_cases hd : (fs.inodes child).linksCount ≤ 1 ∧ ¬fs.delayDelete child
      case pos =>
        rw [when_pos hd] at hdiscard
        cases hdiscard
        rfl
      case neg =>
        rw [when_neg hd] at hdiscard
        cases hdiscard
        rfl
    rw [Ext4Namespace.UnlinkSurvives, if_neg hl]
    exact fun hs => hs.left.right (hk ▸ hf)

end Unlink

section RemoveEmptyDir

variable (ht : fs.removeTarget path = .ok (parent, name, child)) (hd : ((fs.inodes parent).entries.map Prod.fst).Nodup)
include ht hd

theorem removeEmptyDir_error (hm : (name, child) ∈ (fs.inodes parent).entries)
    (h : removeEmptyDirExt4Locked path faults fs n = ⟨.error err, fs', m⟩) :
    faults n ≠ none ∧ fs' = fs ∨ faults n = none ∧ ∀ c, ¬fs'.inodes.Names parent name c := by
  simp only [removeEmptyDirExt4Locked, get_bind, ht, lift_ok_bind] at h
  cases bind_error h
  case inl h =>
    have ⟨hs, hr⟩ := dirRemoveEntry_error h
    have hf := hr ⟨child, hm⟩
    exact .inl ⟨by simp [hf], hs⟩
  case inr h =>
    have ⟨_, s, k, hremove, h⟩ := h
    have hs := not_names_of_dirRemoveEntry hd hremove
    refine .inr ⟨(dirRemoveEntry_ok hremove).left, ?_⟩
    cases bind_error h
    case inl h =>
      have ⟨_, hs', _⟩ := call_error (when_error h).right
      rwa [hs']
    case inr h =>
      have ⟨_, _, _, _, h⟩ := h
      exact absurd h
        (Total.not_error (.bind .modify fun _ => .bind .modify fun _ => .bind .modify fun _ => .modify))

theorem removeEmptyDir_ok (h : removeEmptyDirExt4Locked path faults fs n = ⟨.ok (), fs', m⟩) :
    faults n = none ∧ ∀ c, ¬fs'.inodes.Names parent name c := by
  simp only [removeEmptyDirExt4Locked, get_bind, ht, lift_ok_bind] at h
  have ⟨_, s, k, hremove, h⟩ := bind_ok h
  have hs := not_names_of_dirRemoveEntry hd hremove
  refine ⟨(dirRemoveEntry_ok hremove).left, ?_⟩
  refine @Keeps.of_eq _ _ _ _ _ _ _ _ (fun s : Ext4Namespace => ∀ c, ¬s.inodes.Names parent name c) _ _ ?_ hs h
  refine .bind (.when fun _ => keeps_not_names.left) fun _ => ?_
  refine .bind (keeps_not_names.right _) fun _ => .bind (keeps_not_names.right _) fun _ => ?_
  exact .bind (.modify fun s hs => hs) fun _ => .modify fun s hs => hs

end RemoveEmptyDir

section Create

variable {kind : Ext4NodeKind}

-- The state when the inode has been allocated.
theorem createInode_cases {result : Except SysErrNo Nat} (h : createInode kind faults fs n = ⟨result, fs', m⟩) :
    fs.freeInodes = [] ∧ fs' = fs ∧ result = .error .ENOSPC ∨
      ∃ ino rest, fs.freeInodes = ino :: rest ∧
        (faults n ≠ none ∧ fs' = fs ∧ (∃ err, result = .error err) ∨
          faults n = none ∧ result = .ok ino ∧ m = n + 1 ∧
            fs' = { fs with inodes := Function.update fs.inodes ino (.new kind), freeInodes := rest }) := by
  simp only [createInode, get_bind] at h
  cases hf : fs.freeInodes
  case nil =>
    simp only [hf, lift_error_bind] at h
    cases h
    exact .inl ⟨rfl, rfl, rfl⟩
  case cons ino rest =>
    refine .inr ⟨ino, rest, rfl, ?_⟩
    simp only [hf, lift_ok_bind] at h
    cases hn : faults n
    case some err =>
      rw [bind_of_error (call_some hn)] at h
      cases h
      exact .inl ⟨by simp, rfl, _, rfl⟩
    case none =>
      rw [bind_of_ok (call_none hn)] at h
      cases h
      exact .inr ⟨rfl, rfl, rfl, by simp [hf]⟩

-- The name of the new object stays, whatever comes after it.
theorem keeps_created : Keeps (fun s => s.inodes.Names parent name c)
    (do
      when (kind = .directory) do
        dirAddEntry ino "." ino
        dirAddEntry ino ".." d
        modify fun fs => fs.withInodes (·.setLinksCount d ((fs.inodes d).linksCount + 1))
      modify (·.withInodes (·.setLinksCount ino (if kind = .directory then 2 else 1)))
      return ino : Ext4Program Nat) := by
  have ha (name' : String) (child' : Nat) :
      Keeps (fun s => s.inodes.Names parent name c) (dirAddEntry ino name' child') :=
    .call fun s hs => ⟨mem_entries_addEntry.mpr (.inl hs.left), hs.right⟩
  refine .bind (.when fun _ => ?_) fun _ => .bind (.modify fun s hs => names_setLinksCount.mpr hs) fun _ => .pure
  exact .bind (ha _ _) fun _ => .bind (ha _ _) fun _ => .modify fun s hs => names_setLinksCount.mpr hs

variable (hn : name ≠ "." ∧ name ≠ "..")
include hn

theorem createLinked_cases {result : Except SysErrNo Nat}
    (h : createLinked parent name kind faults fs 0 = ⟨result, fs', m⟩) :
    (fs.freeInodes = [] ∨ FailsAt faults 0) ∧ fs' = fs ∧ (∃ err, result = .error err) ∨
      ∃ ino rest, fs.freeInodes = ino :: rest ∧
        (FailsAt faults 1 ∧ (∃ err, result = .error err) ∧
            fs' = { fs with inodes := Function.update fs.inodes ino (.new kind), freeInodes := rest } ∨
          faults 0 = none ∧ faults 1 = none ∧ fs'.inodes.Names parent name ino) := by
  obtain ⟨result', s, k, hc⟩ : ∃ result s k, createInode kind faults fs 0 = ⟨result, s, k⟩ := ⟨_, _, _, rfl⟩
  obtain ⟨hf, rfl, rfl⟩ | ⟨ino, rest, hf, ⟨h0, rfl, err, rfl⟩ | ⟨h0, rfl, rfl, hs⟩⟩ := createInode_cases hc
  case inl =>
    rw [createLinked, bind_of_error hc] at h
    cases h
    exact .inl ⟨.inl hf, rfl, _, rfl⟩
  case inr.inl =>
    rw [createLinked, bind_of_error hc] at h
    cases h
    exact .inl ⟨.inr ⟨by simp, h0⟩, rfl, _, rfl⟩
  case inr.inr =>
    refine .inr ⟨ino, rest, hf, ?_⟩
    rw [createLinked, bind_of_ok hc] at h
    obtain ⟨added, t, j, ha⟩ : ∃ result t j, dirAddEntry parent name ino faults s (0 + 1) = ⟨result, t, j⟩ :=
      ⟨_, _, _, rfl⟩
    cases added
    case error err =>
      have ⟨h1, ht, _⟩ := dirAddEntry_error ha
      rw [bind_of_error ha] at h
      cases h
      refine .inl ⟨⟨fun i hi => ?_, by simp [h1]⟩, ⟨_, rfl⟩, ht.trans hs⟩
      rwa [Nat.lt_one_iff.mp hi]
    case ok =>
      obtain ⟨h1, rfl, _⟩ := dirAddEntry_ok ha
      rw [bind_of_ok ha] at h
      refine .inr ⟨h0, h1, ?_⟩
      exact @Keeps.of_eq _ _ _ _ _ _ _ _ (fun s : Ext4Namespace => s.inodes.Names parent name ino) _ _ keeps_created
        ((names_addEntry hn).mpr (.inr ⟨rfl, rfl, rfl⟩)) h

end Create

namespace Ext4Namespace

-- An inode that has been allocated without a name.
theorem WellFormed.intact_alloc (h : fs.WellFormed) {rest : List Nat} {kind : Ext4NodeKind}
    (hf : fs.freeInodes = ino :: rest) :
    fs.Intact { fs with inodes := Function.update fs.inodes ino (.new kind), freeInodes := rest } := by
  have ⟨he, hn⟩ := h.free ino (by simp [hf])
  have hentries (i : Nat) : (Function.update fs.inodes ino (.new kind) i).entries = (fs.inodes i).entries := by
    by_cases hi : i = ino
    case pos => rw [hi, Function.update_self, he, Ext4Inode.new]
    case neg => rw [Function.update_of_ne hi]
  refine h.intact_of_perm (fun i => hentries i ▸ .refl _) ?links ?kinds fun i data hd => by simp [content, hd]
  case links =>
    intro i
    by_cases hi : i = ino
    case pos =>
      have hl : (fs.inodes ino).linksCount = 0 := by
        rw [h.links, count]
        refine Finset.sum_eq_zero fun d _ => List.countP_eq_zero.mpr fun entry hm hs => ?_
        exact hn d entry.fst (of_decide_eq_true hs ▸ hm)
      simp only [hi, Function.update_self, hl, Ext4Inode.new]
    case neg => simp only [Function.update_of_ne hi]
  case kinds =>
    intro d name c hc
    have hne : c ≠ ino := fun hc' => hn d name (hc' ▸ hc.left)
    simp only [Function.update_of_ne hne]

theorem WellFormed.intact_flush (h : fs.WellFormed) (child : Nat) : fs.Intact (fs.flushCachedIno child) := by
  refine h.intact_of_perm (fun ino => by rw [entries_flushCachedIno])
    (fun _ => @field_setData _ _ _ _ Ext4Inode.linksCount (fun _ _ => rfl) _)
    (fun _ _ _ _ => @field_setData _ _ _ _ Ext4Inode.kind (fun _ _ => rfl) _) ?cached
  case cached =>
    intro ino data hd
    by_cases hi : ino = child
    case pos =>
      subst hi
      simp [content, flushCachedIno, setData, hd]
    case neg => simp [content, flushCachedIno, setData, hi, hd]

-- What is cached is lost, unless the disk has it.
theorem WellFormed.intact_discard_iff (h : fs.WellFormed) (child : Nat) :
    fs.Intact (fs.discardRegularCache child) ↔ fs.content child = (fs.inodes child).data := by
  constructor
  case mp =>
    intro hi
    cases hc : fs.regularCache child
    case none => simp [content, hc]
    case some data =>
      have := hi.cached child data hc
      simp only [content, discardRegularCache, Function.update_self, Option.getD_none] at this
      simp [content, hc, this]
  case mpr =>
    intro he
    refine h.intact_of_perm (fun _ => .refl _) (fun _ => rfl) (fun _ _ _ _ => rfl) fun ino data hd => ?_
    by_cases hi : ino = child
    case pos =>
      subst hi
      simpa [content, discardRegularCache, hd] using he.symm
    case neg => simp [content, discardRegularCache, hi, hd]

-- What a creation that fails comes to, where `s` is the state when the object has been created or has not.
theorem WellFormed.intact_create_iff (h : fs.WellFormed) {kind : Ext4NodeKind} {result : Except SysErrNo Nat}
    {s : Ext4Namespace} (hn : name ≠ "." ∧ name ≠ "..") (hnew : ∀ c, ¬fs.inodes.Names parent name c)
    (hc : createLinked parent name kind faults fs 0 = ⟨result, s, m⟩)
    (herr : ∀ err, result = .error err → fs' = s)
    (hok : ∀ c, s.inodes.Names parent name c → fs'.inodes.Names parent name c) :
    fs.Intact fs' ↔ fs.freeInodes = [] ∨ FailsAt faults 0 ∨ FailsAt faults 1 := by
  obtain ⟨hf, rfl, err, he⟩ | ⟨ino, rest, hf, ⟨h1, ⟨err, he⟩, hs⟩ | ⟨h0, h1, hs⟩⟩ := createLinked_cases hn hc
  case inl =>
    rw [herr err he]
    exact iff_of_true h.intact_self (hf.imp id .inl)
  case inr.inl =>
    rw [herr err he, hs]
    exact iff_of_true (h.intact_alloc hf) (.inr (.inr h1))
  case inr.inr =>
    refine iff_of_false (fun hi => hnew ino ((hi.names parent name ino).mp (hok ino hs))) ?_
    rintro (hf' | h0' | h1')
    case inl => simp [hf] at hf'
    case inr.inl => exact h0'.right h0
    case inr.inr => exact h1'.right h1

theorem WellFormed.mkdir_iff (h : fs.WellFormed) (hdot : "." ∉ path ∧ ".." ∉ path)
    (ht : fs.createTarget path = .ok (parent, name))
    (hr : mkdirExt4WithMode path faults fs 0 = ⟨.error err, fs', m⟩) :
    fs.Intact fs' ↔ fs.freeInodes = [] ∨ FailsAt faults 0 ∨ FailsAt faults 1 := by
  have ⟨_, hn, hnew⟩ := h.createTarget_ok hdot ht
  simp only [mkdirExt4WithMode, get_bind, ht, lift_ok_bind] at hr
  cases bind_error hr
  case inl hr => exact h.intact_create_iff hn hnew hr (fun _ _ => rfl) fun _ hc => hc
  case inr hr =>
    have ⟨_, _, _, _, hr⟩ := hr
    exact absurd hr Total.modify.not_error

theorem WellFormed.symlink_iff (h : fs.WellFormed) {target : List UInt8} (hdot : "." ∉ path ∧ ".." ∉ path)
    (ht : fs.createTarget path = .ok (parent, name))
    (hr : createSymlinkExt4 target path faults fs 0 = ⟨.error err, fs', m⟩) :
    fs.Intact fs' ↔ fs.freeInodes = [] ∨ FailsAt faults 0 ∨ FailsAt faults 1 := by
  have ⟨_, hn, hnew⟩ := h.createTarget_ok hdot ht
  simp only [createSymlinkExt4, get_bind, ht, lift_ok_bind] at hr
  cases bind_error hr
  case inl hr => exact h.intact_create_iff hn hnew hr (fun _ _ => rfl) fun _ hc => hc
  case inr hr =>
    have ⟨ino, s, k, hc, hr⟩ := hr
    refine h.intact_create_iff hn hnew hc nofun fun c hs => ?_
    refine @Keeps.of_eq _ _ _ _ _ _ _ _ (fun s : Ext4Namespace => s.inodes.Names parent name c) _ _ ?_ hs hr
    refine .bind (.when fun _ => .call fun s hs => ?_) fun _ => .modify fun s hs => hs
    rwa [Names, withInodes, entries_setData]

theorem WellFormed.unlink_iff (h : fs.WellFormed) (ht : fs.unlinkTarget path = .ok (parent, name, child))
    (hr : unlinkNonDirLocked path faults fs 0 = ⟨.error err, fs', m⟩) :
    fs.Intact fs' ↔ fs.UnlinkSurvives faults child := by
  have ⟨hn, _, _⟩ := h.unlinkTarget_ok ht
  obtain ⟨hl, ⟨h0, rfl⟩ | ⟨h0, h1, rfl⟩⟩ | ⟨hl, ⟨h0, ho, rfl⟩ | ⟨h0, ho, rfl⟩ | ⟨h0, ho, rfl⟩⟩ :=
    unlink_error ht hn.left hr
  case inl.inl =>
    rw [UnlinkSurvives, if_pos hl]
    exact iff_of_true h.intact_self (.inl ⟨nofun, h0⟩)
  case inl.inr =>
    rw [UnlinkSurvives, if_pos hl]
    refine iff_of_true (h.intact_flush child) (.inr ⟨fun i hi => ?_, h1⟩)
    rwa [Nat.lt_one_iff.mp hi]
  case inr.inl =>
    rw [UnlinkSurvives, if_neg (not_lt.mpr hl)]
    exact iff_of_true h.intact_self ⟨⟨nofun, h0⟩, .inl ho⟩
  case inr.inr.inl =>
    rw [UnlinkSurvives, if_neg (not_lt.mpr hl), and_iff_right ⟨nofun, h0⟩, or_iff_right ho]
    exact h.intact_discard_iff child
  case inr.inr.inr =>
    rw [UnlinkSurvives, if_neg (not_lt.mpr hl)]
    refine iff_of_false (fun hi => ?_) fun hs => hs.left.right h0
    exact not_mem_removeEntry (h.tree.nodup parent) ((hi.names parent name child).mpr hn).left

end Ext4Namespace

end WllOs.Fs
