import WllOs.Ipc.Shm
import WllOs.Mm.Theorems.SharedRights

set_option mvcgen.warning false

open Std.Do

namespace WllOs

variable {areas : List MapArea} {attachments : List (Nat × Nat)} {attachment : Nat × Nat} {vpn shmid : Nat}
variable {ms ms' : MemorySet} {segments : Segments} {len count : Nat → Nat} {next : Nat}

-- The attachments of an address space.

theorem mem_attachmentsFrom : attachment ∈ attachmentsFrom areas attachments ↔
    attachment ∈ attachments ∨
    ∃ area ∈ areas, ∃ offset, area.backing = .sharedMemory attachment.1 attachment.2 offset := by
  induction areas generalizing attachments
  case nil => simp [attachmentsFrom]
  case cons area areas hi =>
    simp only [attachmentsFrom, List.exists_mem_cons_iff]
    split
    case h_1 shmid base offset hb =>
      have hnew : (∃ offset', area.backing = .sharedMemory attachment.1 attachment.2 offset') ↔
          attachment = (shmid, base) := by
        simp only [hb, MapAreaBacking.sharedMemory.injEq]
        constructor
        case mp => rintro ⟨_, rfl, rfl, _⟩; rfl
        case mpr => rintro rfl; exact ⟨offset, rfl, rfl, rfl⟩
      rw [hnew]
      split
      case isTrue hm =>
        rw [hi]
        constructor
        case mp => exact Or.imp_right .inr
        case mpr =>
          rintro (h | h | h)
          · exact .inl h
          · exact .inl (h ▸ hm)
          · exact .inr h
      case isFalse => rw [hi, List.mem_append, List.mem_singleton, or_assoc]
    case h_2 hb =>
      have hnone : ¬∃ offset', area.backing = .sharedMemory attachment.1 attachment.2 offset' :=
        fun ⟨_, h⟩ => hb _ _ _ h
      rw [hi]
      simp [hnone]

theorem nodup_attachmentsFrom (h : attachments.Nodup) : (attachmentsFrom areas attachments).Nodup := by
  induction areas generalizing attachments
  case nil => exact h
  case cons area areas hi =>
    simp only [attachmentsFrom]
    split
    case h_1 =>
      split
      case isTrue => exact hi h
      case isFalse hm => exact hi (List.nodup_append'.mpr ⟨h, List.nodup_singleton _, by simpa using hm⟩)
    case h_2 => exact hi h

theorem nodup_attachments : (taskSharedMemoryAttachments ms).Nodup :=
  nodup_attachmentsFrom List.nodup_nil

-- A page of an attachment.
def ShmPage (areas : List MapArea) (vpn : Nat) (attachment : Nat × Nat) : Prop :=
  ∃ w offset, PolicyAt areas vpn w (.sharedMemory attachment.1 attachment.2 offset)

theorem shmPage_iff : ShmPage areas vpn attachment ↔
    ∃ area ∈ areas, (∃ offset, area.backing = .sharedMemory attachment.1 attachment.2 offset) ∧
      area.startVa ≤ vpn * pageSize ∧ vpn * pageSize < area.endVa := by
  constructor
  case mp =>
    rintro ⟨w, offset, view, ⟨area, ha, hv⟩, _, hb⟩
    have ⟨hs, he, heq⟩ := MapArea.view_eq_some.mp hv
    subst heq
    refine ⟨area, ha, ?_, hs, he⟩
    cases hback : area.backing <;> simp only [hback, MapAreaBacking.page, reduceCtorEq] at hb
    case sharedMemory shmid base offset' =>
      cases hb
      exact ⟨offset', rfl⟩
  case mpr =>
    rintro ⟨area, ha, ⟨offset, hb⟩, hs, he⟩
    exact ⟨_, _, _, ⟨area, ha, MapArea.view_eq_some.mpr ⟨hs, he, rfl⟩⟩, rfl, by rw [hb]; rfl⟩

theorem mem_attachments (hw : ∀ a ∈ ms.areas, a.WF) : attachment ∈ taskSharedMemoryAttachments ms ↔
    ∃ vpn, ShmPage ms.areas vpn attachment := by
  simp only [taskSharedMemoryAttachments, mem_attachmentsFrom, List.not_mem_nil, false_or, shmPage_iff]
  constructor
  case mp =>
    rintro ⟨area, ha, hb⟩
    refine ⟨area.startVa / pageSize, area, ha, hb, ?_⟩
    have := (hw area ha).start_aligned
    have := (hw area ha).start_lt_end
    simp only [pageSize] at *
    omega
  case mpr =>
    rintro ⟨_, area, ha, hb, _⟩
    exact ⟨area, ha, hb⟩

-- How often a segment is attached depends on the attachments only as a set.
def attachedTo (ms : MemorySet) (shmid : Nat) : Nat :=
  (taskSharedMemoryAttachments ms).countP (·.1 = shmid)

theorem attachedTo_congr (h : ∀ attachment, attachment ∈ taskSharedMemoryAttachments ms' ↔
    attachment ∈ taskSharedMemoryAttachments ms) (shmid : Nat) : attachedTo ms' shmid = attachedTo ms shmid :=
  ((List.perm_ext_iff_of_nodup nodup_attachments nodup_attachments).mpr h).countP_eq _

theorem attachedTo_insert {new : Nat × Nat} (hn : new ∉ taskSharedMemoryAttachments ms)
    (h : ∀ attachment, attachment ∈ taskSharedMemoryAttachments ms' ↔
      attachment = new ∨ attachment ∈ taskSharedMemoryAttachments ms) (shmid : Nat) :
    attachedTo ms' shmid = attachedTo ms shmid + if new.1 = shmid then 1 else 0 := by
  have hperm : (taskSharedMemoryAttachments ms').Perm (new :: taskSharedMemoryAttachments ms) :=
    (List.perm_ext_iff_of_nodup nodup_attachments (List.nodup_cons.mpr ⟨hn, nodup_attachments⟩)).mpr fun a => by
      rw [h, List.mem_cons]
  rw [attachedTo, hperm.countP_eq, List.countP_cons]
  simp [attachedTo]

theorem attachedTo_eq_zero (h : taskSharedMemoryAttachments ms = []) (shmid : Nat) : attachedTo ms shmid = 0 := by
  simp [attachedTo, h]

namespace Segments

-- Segments as a ledger of attachments. The number of frames of a segment is fixed, and the identifiers
-- from `next` on have not been used.
structure Counts (next : Nat) (len count : Nat → Nat) (segments : Segments) : Prop where
  ids         : (segments.map Prod.fst).Nodup
  used        : ∀ id segment, (id, segment) ∈ segments → id < next
  frames      : ∀ id segment, (id, segment) ∈ segments → segment.frames.length = len id
  attachCount : ∀ id segment, (id, segment) ∈ segments → segment.attachCount = count id
  exists_of   : ∀ id, 0 < count id → ∃ segment, (id, segment) ∈ segments

-- Apart from the given ones, segments that are marked for removal have attachments.
def Marked (except : List Nat) (segments : Segments) : Prop :=
  ∀ id segment, (id, segment) ∈ segments → segment.markedForRemove → 0 < segment.attachCount ∨ id ∈ except

variable {f : SharedMemorySegment → SharedMemorySegment} {segment : SharedMemorySegment} {except : List Nat}

theorem update_fst : (segments.update shmid f).map Prod.fst = segments.map Prod.fst := by
  simp [update]

theorem mem_update {id : Nat} : (id, segment) ∈ segments.update shmid f ↔
    ∃ old, (id, old) ∈ segments ∧ segment = if id = shmid then f old else old := by
  simp only [update, List.mem_map, Prod.mk.injEq, Prod.exists]
  constructor
  case mp =>
    rintro ⟨id', old, hm, rfl, hs⟩
    exact ⟨old, hm, hs.symm⟩
  case mpr =>
    rintro ⟨old, hm, hs⟩
    exact ⟨id, old, hm, rfl, hs.symm⟩

theorem mem_unique (h : (segments.map Prod.fst).Nodup) {id : Nat} {segment' : SharedMemorySegment}
    (hm : (id, segment) ∈ segments) (hm' : (id, segment') ∈ segments) : segment = segment' := by
  have := List.inj_on_of_nodup_map h hm hm' rfl
  simpa using this

theorem lookup_of_mem (h : (segments.map Prod.fst).Nodup) {id : Nat} (hm : (id, segment) ∈ segments) :
    segments.lookup id = some segment := by
  induction segments
  case nil => cases hm
  case cons entry segments hi =>
    obtain ⟨id', old⟩ := entry
    have ⟨hn, hnodup⟩ := List.nodup_cons.mp h
    cases List.mem_cons.mp hm
    case inl he =>
      cases he
      simp [List.lookup]
    case inr ht =>
      have hne : (id == id') = false := by
        simp only [beq_eq_false_iff_ne]
        rintro rfl
        exact hn (List.mem_map.mpr ⟨_, ht, rfl⟩)
      simp only [List.lookup, hne, hi hnodup ht]

theorem mem_of_lookup {id : Nat} (h : segments.lookup id = some segment) : (id, segment) ∈ segments := by
  induction segments
  case nil => cases h
  case cons entry segments hi =>
    obtain ⟨id', old⟩ := entry
    by_cases he : id = id'
    case pos =>
      simp only [List.lookup, he, beq_self_eq_true, Option.some.injEq] at h
      simp [he, h]
    case neg =>
      have hb : (id == id') = false := by simpa using he
      simp only [List.lookup, hb] at h
      exact .tail _ (hi h)

theorem Counts.congr {count' : Nat → Nat} (h : Counts next len count segments)
    (he : ∀ id, count' id = count id) : Counts next len count' segments := by
  rw [funext he]
  exact h

theorem Counts.update {n : Nat} (h : Counts next len count segments)
    (hframes : ∀ segment, (shmid, segment) ∈ segments → (f segment).frames.length = len shmid)
    (hcount : ∀ segment, (shmid, segment) ∈ segments → (f segment).attachCount = n)
    (hexists : 0 < n → ∃ segment, (shmid, segment) ∈ segments) :
    Counts next len (Function.update count shmid n) (segments.update shmid f) where
  ids := by
    rw [update_fst]
    exact h.ids
  used id segment hm := by
    have ⟨old, ho, _⟩ := mem_update.mp hm
    exact h.used id old ho
  frames id segment hm := by
    have ⟨old, ho, hs⟩ := mem_update.mp hm
    by_cases he : id = shmid
    case pos =>
      subst he
      simp [hs, hframes old ho]
    case neg => simp [hs, he, h.frames id old ho]
  attachCount id segment hm := by
    have ⟨old, ho, hs⟩ := mem_update.mp hm
    by_cases he : id = shmid
    case pos =>
      subst he
      simp [hs, hcount old ho]
    case neg => simp [hs, he, h.attachCount id old ho]
  exists_of id hpos := by
    have hold : ∃ segment, (id, segment) ∈ segments := by
      by_cases he : id = shmid
      case pos =>
        subst he
        exact hexists (by simpa using hpos)
      case neg => exact h.exists_of id (by simpa [he] using hpos)
    have ⟨old, ho⟩ := hold
    exact ⟨_, mem_update.mpr ⟨old, ho, rfl⟩⟩

theorem Counts.filter {p : Nat × SharedMemorySegment → Bool} (h : Counts next len count segments)
    (hz : ∀ id segment, (id, segment) ∈ segments → ¬p (id, segment) → count id = 0) :
    Counts next len count (segments.filter p) where
  ids := h.ids.sublist (List.filter_sublist.map _)
  used id segment hm := h.used id segment (List.mem_of_mem_filter hm)
  frames id segment hm := h.frames id segment (List.mem_of_mem_filter hm)
  attachCount id segment hm := h.attachCount id segment (List.mem_of_mem_filter hm)
  exists_of id hpos := by
    have ⟨segment, hm⟩ := h.exists_of id hpos
    refine ⟨segment, List.mem_filter.mpr ⟨hm, ?_⟩⟩
    by_contra hp
    exact Nat.ne_of_gt hpos (hz id segment hm hp)

theorem Counts.remove {ids : List Nat} (h : Counts next len count segments) (hz : ∀ id ∈ ids, count id = 0) :
    Counts next len count (segments.remove ids) :=
  h.filter fun id _ _ hp => hz id (by simpa using hp)

theorem Marked.remove (h : Marked except segments) : Marked [] (segments.remove except) := by
  intro id segment hm hmark
  have ⟨hm, hne⟩ := List.mem_filter.mp hm
  refine .inl ((h id segment hm hmark).resolve_right ?_)
  simpa using hne

theorem Marked.update (h : Marked except segments)
    (hf : ∀ segment, (shmid, segment) ∈ segments → (f segment).markedForRemove →
      0 < (f segment).attachCount ∨ shmid ∈ except) : Marked except (segments.update shmid f) := by
  intro id segment hm hmark
  have ⟨old, ho, hs⟩ := mem_update.mp hm
  by_cases he : id = shmid
  case pos =>
    subst he
    rw [if_pos rfl] at hs
    subst hs
    exact hf old ho hmark
  case neg =>
    rw [if_neg he] at hs
    subst hs
    exact h id segment ho hmark

-- One more attachment.
theorem Counts.attach (h : Counts next len count segments) (hm : Marked [] segments) (hmax : count shmid < Usize.max)
    (hs : (shmid, segment) ∈ segments) (hf : ∀ segment, (f segment).frames = segment.frames ∧
      (f segment).attachCount = Usize.saturatingAdd segment.attachCount 1) :
    Counts next len (Function.update count shmid (count shmid + 1)) (segments.update shmid f) ∧
    Marked [] (segments.update shmid f) := by
  have hcount (segment : SharedMemorySegment) (hs : (shmid, segment) ∈ segments) :
      (f segment).attachCount = count shmid + 1 := by
    rw [(hf segment).2, h.attachCount _ _ hs, Usize.saturatingAdd]
    omega
  refine ⟨h.update (fun segment hs => ?_) hcount fun _ => ⟨segment, hs⟩, hm.update fun segment hs _ => .inl ?_⟩
  case refine_1 =>
    rw [(hf segment).1]
    exact h.frames _ segment hs
  case refine_2 =>
    rw [hcount segment hs]
    exact Nat.succ_pos _

-- One attachment less.
theorem Counts.detach (h : Counts next len count segments) (hpos : 0 < count shmid)
    (hf : ∀ segment, (f segment).frames = segment.frames ∧ (f segment).attachCount = segment.attachCount - 1) :
    Counts next len (Function.update count shmid (count shmid - 1)) (segments.update shmid f) := by
  refine h.update (fun segment hs => ?_) (fun segment hs => ?_) fun _ => h.exists_of shmid hpos
  case refine_1 =>
    rw [(hf segment).1]
    exact h.frames _ segment hs
  case refine_2 => rw [(hf segment).2, h.attachCount _ _ hs]

-- A segment that is marked for removal goes along with its last attachment.
theorem Counts.release (h : Counts next len count segments) (hm : Marked [] segments) (hpos : 0 < count shmid)
    (hf : ∀ segment, (f segment).frames = segment.frames ∧ (f segment).attachCount = segment.attachCount - 1) :
    let released := (segments.update shmid f).filter fun (id, segment) =>
      !(id = shmid && segment.markedForRemove && segment.attachCount = 0)
    Counts next len (Function.update count shmid (count shmid - 1)) released ∧ Marked [] released := by
  have hcounts := h.detach hpos hf
  refine ⟨hcounts.filter fun id segment hs hp => ?_, fun id segment hs hmark => .inl ?_⟩
  case refine_1 =>
    simp only [Bool.not_eq_true', Bool.not_eq_false, Bool.and_eq_true, decide_eq_true_eq] at hp
    rw [← hcounts.attachCount id segment hs]
    exact hp.2
  case refine_2 =>
    have ⟨hs, hp⟩ := List.mem_filter.mp hs
    have ⟨old, ho, heq⟩ := mem_update.mp hs
    by_cases hid : id = shmid
    case pos =>
      refine Nat.pos_of_ne_zero fun hz => ?_
      simp [hid, hmark, hz] at hp
    case neg =>
      rw [if_neg hid] at heq
      subst heq
      exact (hm id segment ho hmark).resolve_right List.not_mem_nil

-- A new segment.
theorem Counts.append (h : Counts next len count segments) {pages : Nat} (hlen : segment.frames.length = pages)
    (hz : count next = 0) (hcount : segment.attachCount = 0) :
    Counts (next + 1) (Function.update len next pages) count (segments ++ [(next, segment)]) where
  ids := by
    rw [List.map_append, List.nodup_append']
    refine ⟨h.ids, List.nodup_singleton _, ?_⟩
    simp only [List.map_cons, List.map_nil, List.disjoint_singleton, List.mem_map, Prod.exists, not_exists]
    rintro id segment ⟨hm, rfl⟩
    exact Nat.lt_irrefl _ (h.used id segment hm)
  used id segment' hm := by
    cases List.mem_append.mp hm
    case inl hm => exact Nat.lt_succ_of_lt (h.used id segment' hm)
    case inr hm =>
      cases List.mem_singleton.mp hm
      exact Nat.lt_succ_self _
  frames id segment' hm := by
    cases List.mem_append.mp hm
    case inl hm =>
      rw [Function.update_of_ne (Nat.ne_of_lt (h.used id segment' hm))]
      exact h.frames id segment' hm
    case inr hm =>
      cases List.mem_singleton.mp hm
      rw [Function.update_self, hlen]
  attachCount id segment' hm := by
    cases List.mem_append.mp hm
    case inl hm => exact h.attachCount id segment' hm
    case inr hm =>
      cases List.mem_singleton.mp hm
      rw [hz, hcount]
  exists_of id hpos := by
    have ⟨segment', hm⟩ := h.exists_of id hpos
    exact ⟨segment', List.mem_append_left _ hm⟩

theorem Marked.append (h : Marked except segments) {id : Nat} (hmark : segment.markedForRemove = false) :
    Marked except (segments ++ [(id, segment)]) := by
  intro id' segment' hm hmark'
  cases List.mem_append.mp hm
  case inl hm => exact h id' segment' hm hmark'
  case inr hm =>
    cases List.mem_singleton.mp hm
    simp [hmark] at hmark'

-- A segment that is marked for removal goes at once unless it has attachments.
theorem Counts.mark (h : Counts next len count segments) (hm : Marked [] segments)
    (hs : (shmid, segment) ∈ segments) :
    let marked := segments.update shmid ({ · with markedForRemove := true })
    let marked := if segment.attachCount = 0 then marked.remove [shmid] else marked
    Counts next len count marked ∧ Marked [] marked := by
  have hcount := h.attachCount _ _ hs
  have hcounts := h.update (n := count shmid) (f := ({ · with markedForRemove := true }))
    (fun segment hs => h.frames shmid segment hs) (fun segment hs => h.attachCount shmid segment hs) fun _ => ⟨segment, hs⟩
  rw [Function.update_eq_self] at hcounts
  dsimp only
  split
  case isTrue hz =>
    have hmarked : Marked [shmid] (segments.update shmid ({ · with markedForRemove := true })) := by
      have hm : Marked [shmid] segments := fun id old ho hmark => (hm id old ho hmark).imp_right nofun
      exact hm.update fun _ _ _ => .inr (.head _)
    exact ⟨hcounts.remove (by simp [← hcount, hz]), hmarked.remove⟩
  case isFalse hne =>
    refine ⟨hcounts, hm.update fun segment' hs' _ => .inl ?_⟩
    rw [mem_unique h.ids hs' hs]
    exact Nat.pos_of_ne_zero hne

end Segments

open Segments

-- The segment of every attachment is counted up.
theorem inherit_counts (attachments : List (Nat × Nat)) (h : Counts next len count segments)
    (hm : Marked [] segments) (hexists : ∀ attachment ∈ attachments, 0 < count attachment.1)
    (hmax : ∀ id, count id + attachments.countP (·.1 = id) ≤ Usize.max) :
    let segments' := attachments.foldl (fun segments (shmid, _) => segments.update shmid fun segment =>
      { segment with attachCount := Usize.saturatingAdd segment.attachCount 1 }) segments
    Counts next len (fun id => count id + attachments.countP (·.1 = id)) segments' ∧ Marked [] segments' := by
  induction attachments generalizing segments count
  case nil => simpa using ⟨h, hm⟩
  case cons attachment attachments hi =>
    obtain ⟨shmid, base⟩ := attachment
    have hpos : 0 < count shmid := hexists _ (.head _)
    have hsat : Usize.saturatingAdd (count shmid) 1 = count shmid + 1 := by
      have := hmax shmid
      simp only [List.countP_cons, decide_true, if_true] at this
      simp only [Usize.saturatingAdd]
      omega
    have hcounts : Counts next len (Function.update count shmid (count shmid + 1)) (segments.update shmid fun segment =>
        { segment with attachCount := Usize.saturatingAdd segment.attachCount 1 }) :=
      h.update (fun segment hs => h.frames _ segment hs) (fun segment hs => by rw [h.attachCount _ _ hs, hsat]) fun _ => h.exists_of shmid hpos
    have hmarked : Marked [] (segments.update shmid fun segment =>
        { segment with attachCount := Usize.saturatingAdd segment.attachCount 1 }) :=
      hm.update fun segment hs _ => .inl (by rw [h.attachCount _ _ hs, hsat]; exact Nat.succ_pos _)
    have hsum (id : Nat) : Function.update count shmid (count shmid + 1) id + attachments.countP (·.1 = id) =
        count id + ((shmid, base) :: attachments).countP (·.1 = id) := by
      by_cases he : id = shmid
      case pos =>
        subst he
        simp only [Function.update_self, List.countP_cons, decide_true, if_true]
        omega
      case neg => simp [he, Ne.symm he]
    have := hi hcounts hmarked (fun a ha => ?_) fun id => by rw [hsum]; exact hmax id
    case _ =>
      simp only [hsum] at this
      exact this
    case _ =>
      by_cases he : a.1 = shmid
      case pos => simp [he]
      case neg => simpa [he] using hexists a (.tail _ ha)

-- The segment of every attachment is counted down. The ones that are to be removed have no attachments left.
theorem detachFrom_counts (tgid : Nat) (now : Int) (attachments : List (Nat × Nat)) {removeIds : List Nat}
    (h : Counts next len count segments) (hm : Marked removeIds segments) (hz : ∀ id ∈ removeIds, count id = 0)
    (hle : ∀ id, attachments.countP (·.1 = id) ≤ count id) :
    let result := detachFrom tgid now attachments segments removeIds
    Counts next len (fun id => count id - attachments.countP (·.1 = id)) result.1 ∧ Marked result.2 result.1 ∧
    ∀ id ∈ result.2, count id - attachments.countP (·.1 = id) = 0 := by
  induction attachments generalizing segments count removeIds
  case nil => simpa [detachFrom] using ⟨h, hm, hz⟩
  case cons attachment attachments hi =>
    obtain ⟨shmid, base⟩ := attachment
    have hpos : 0 < count shmid := by
      have := hle shmid
      simp only [List.countP_cons, decide_true, if_true] at this
      omega
    have ⟨segment, hs⟩ := h.exists_of shmid hpos
    have hcount := h.attachCount _ _ hs
    simp only [detachFrom, lookup_of_mem h.ids hs]
    have hcounts : Counts next len (Function.update count shmid (count shmid - 1)) (segments.update shmid fun _ =>
        { segment with attachCount := segment.attachCount - 1, lpid := tgid, dtime := now }) :=
      h.update (fun _ _ => h.frames _ segment hs) (fun _ _ => by rw [hcount]) fun _ => ⟨segment, hs⟩
    have hmarked : Marked (if segment.markedForRemove && segment.attachCount - 1 = 0 then
        removeIds ++ [shmid] else removeIds) (segments.update shmid fun _ =>
        { segment with attachCount := segment.attachCount - 1, lpid := tgid, dtime := now }) := by
      have hkeep : Marked (if segment.markedForRemove && segment.attachCount - 1 = 0 then
          removeIds ++ [shmid] else removeIds) segments := fun id old ho hmark =>
        (hm id old ho hmark).imp_right fun hr => by
          split
          case isTrue => exact List.mem_append_left _ hr
          case isFalse => exact hr
      refine hkeep.update fun _ _ hmark => ?_
      by_cases hzero : segment.attachCount - 1 = 0
      case pos => exact .inr (by simp [show segment.markedForRemove = true from hmark, hzero])
      case neg => exact .inl (Nat.pos_of_ne_zero hzero)
    have hzero : ∀ id ∈ (if segment.markedForRemove && segment.attachCount - 1 = 0 then
        removeIds ++ [shmid] else removeIds), Function.update count shmid (count shmid - 1) id = 0 := by
      intro id hr
      have hold (hr : id ∈ removeIds) : Function.update count shmid (count shmid - 1) id = 0 := by
        have hz := hz id hr
        by_cases heq : id = shmid
        case pos =>
          subst heq
          omega
        case neg => simpa [heq] using hz
      split at hr
      case isFalse => exact hold hr
      case isTrue hzero =>
        cases List.mem_append.mp hr
        case inl hr => exact hold hr
        case inr hr =>
          simp only [Bool.and_eq_true, decide_eq_true_eq] at hzero
          rw [List.mem_singleton.mp hr, Function.update_self, ← hcount]
          exact hzero.2
    have hsum (id : Nat) : Function.update count shmid (count shmid - 1) id - attachments.countP (·.1 = id) =
        count id - ((shmid, base) :: attachments).countP (·.1 = id) := by
      by_cases he : id = shmid
      case pos =>
        subst he
        simp only [Function.update_self, List.countP_cons, decide_true, if_true]
        omega
      case neg => simp [he, Ne.symm he]
    have hle' (id : Nat) : attachments.countP (·.1 = id) ≤ Function.update count shmid (count shmid - 1) id := by
      have := hle id
      by_cases heq : id = shmid
      case pos =>
        subst heq
        simp only [Function.update_self, List.countP_cons, decide_true, if_true] at this ⊢
        omega
      case neg => simpa [heq, Ne.symm heq] using this
    have := hi hcounts hmarked hzero hle'
    simp only [hsum] at this
    exact this

theorem detach_counts (tgid : Nat) (now : Int) (h : Counts next len count segments) (hm : Marked [] segments)
    (hle : ∀ id, attachedTo ms id ≤ count id) :
    Counts next len (fun id => count id - attachedTo ms id) (detachTaskSharedMemory tgid now ms segments) ∧
    Marked [] (detachTaskSharedMemory tgid now ms segments) := by
  have ⟨hc, hm, hz⟩ := detachFrom_counts tgid now _ h hm nofun hle
  exact ⟨hc.remove hz, hm.remove⟩

-- The pages of attachments, after everything in a range may have been unmapped.
structure KeptPages (ms : MemorySet) (range : Option (Nat × Nat)) (ms' : MemorySet) : Prop where
  wf   : ms'.WF
  old  : ∀ vpn attachment, ShmPage ms'.areas vpn attachment → ShmPage ms.areas vpn attachment
  kept : ∀ vpn attachment, ShmPage ms.areas vpn attachment → ShmPage ms'.areas vpn attachment ∨
           ∃ bounds, range = some bounds ∧ bounds.1 ≤ vpn * pageSize ∧ vpn * pageSize < bounds.2

namespace KeptPages

variable {ms'' : MemorySet} {range : Option (Nat × Nat)} {start stop : Nat} {frames : Frames}

theorem of_policyAt (hw : ms'.WF)
    (h : ∀ {vpn w backing}, PolicyAt ms'.areas vpn w backing ↔ PolicyAt ms.areas vpn w backing) :
    KeptPages ms range ms' where
  wf := hw
  old := fun _ _ ⟨w, offset, hp⟩ => ⟨w, offset, h.mp hp⟩
  kept := fun _ _ ⟨w, offset, hp⟩ => .inl ⟨w, offset, h.mpr hp⟩

theorem refl (hw : ms.WF) : KeptPages ms range ms :=
  .of_policyAt hw .rfl

theorem trans (h : KeptPages ms range ms') (h' : KeptPages ms' none ms'') : KeptPages ms range ms'' where
  wf := h'.wf
  old vpn a hp := h.old vpn a (h'.old vpn a hp)
  kept vpn a hp := (h.kept vpn a hp).imp_left fun hp =>
    (h'.kept vpn a hp).resolve_right fun ⟨_, hn, _⟩ => by cases hn

theorem unmapRange (hw : ms.WF) (h : ms.unmapRange start stop = .ok ms') :
    KeptPages ms (some (start, stop)) ms' where
  wf := MemorySet.unmapRange_wf hw h
  old := fun _ _ ⟨w, offset, hp⟩ => ⟨w, offset, ((MemorySet.unmapRange_policyAt hw h).mp hp).2⟩
  kept := fun vpn _ ⟨w, offset, hp⟩ => by
    by_cases hr : start ≤ vpn * pageSize ∧ vpn * pageSize < stop
    case pos => exact .inr ⟨_, rfl, hr⟩
    case neg => exact .inl ⟨w, offset, (MemorySet.unmapRange_policyAt hw h).mpr ⟨hr, hp⟩⟩

theorem protectRange {refCount : Ppn → Nat} {flags : PTEFlags} (hw : ms.WF) (hu : flags.u)
    (h : MemorySet.protectRange refCount ms start stop flags = .ok ms') : KeptPages ms range ms' where
  wf := MemorySet.protectRange_wf hw hu h
  old := fun vpn _ ⟨w, offset, hp⟩ => by
    rw [MemorySet.protectRange_policyAt hw hu h] at hp
    split at hp
    case isTrue =>
      have ⟨_, w', hp⟩ := hp
      exact ⟨w', offset, hp⟩
    case isFalse => exact ⟨w, offset, hp⟩
  kept := fun vpn _ ⟨w, offset, hp⟩ => .inl <| by
    by_cases hr : start ≤ vpn * pageSize ∧ vpn * pageSize < stop
    case pos =>
      exact ⟨flags.w, offset, (MemorySet.protectRange_policyAt hw hu h).mpr (by rw [if_pos hr]; exact ⟨rfl, w, hp⟩)⟩
    case neg => exact ⟨w, offset, (MemorySet.protectRange_policyAt hw hu h).mpr (by rwa [if_neg hr])⟩

-- A new area that is not an attachment.
theorem insert {permission : PTEFlags} {backing : MapAreaBacking} (hw : ms'.WF)
    (hb : ∀ shmid base offset, backing ≠ .sharedMemory shmid base offset)
    (h : ∀ {vpn w page}, PolicyAt ms'.areas vpn w page ↔
      PolicyAt ms.areas vpn w page ∨ MemorySet.NewAt permission backing start stop vpn w page) :
    KeptPages ms range ms' where
  wf := hw
  old := fun _ _ ⟨w, offset, hp⟩ => ⟨w, offset, (h.mp hp).resolve_right fun ⟨_, _, _, _, _, _, hpage⟩ => by
    cases hback : backing <;> simp only [hback, MapAreaBacking.page, reduceCtorEq] at hpage
    exact hb _ _ _ hback⟩
  kept := fun _ _ ⟨w, offset, hp⟩ => .inl ⟨w, offset, h.mpr (.inl hp)⟩

end KeptPages

-- What a call that neither attaches nor detaches does to a process.
structure Kept (before : Process) (range : Option (Nat × Nat)) (after : Process) : Prop where
  segments : after.segments = before.segments
  pages    : KeptPages before.memorySet range after.memorySet

theorem Kept.unchanged {before after : Process} {range : Option (Nat × Nat)} (h : after = before)
    (hw : before.memorySet.WF) : Kept before range after := by
  subst h
  exact ⟨rfl, .refl hw⟩

section Calls

open Hoare SyscallM

variable {kernel : Kernel} {process : Process} {α : Type}

-- The spec of such a call.
abbrev KeepsAttachments (process : Process) (range : Option (Nat × Nat)) (call : SyscallM α) : Prop :=
  ⦃fun before => ⌜before = process⌝⦄ call
  ⦃post⟨fun _ after => ⌜Kept process range after⌝, fun _ after => ⌜Kept process range after⌝⟩⦄

theorem sysMunmap_kept (addr length : Nat) (hw : process.memorySet.WF) :
    KeepsAttachments process ((Syscall.munmap addr length).unmaps kernel process)
      (sysMunmap kernel addr length) := by
  mvcgen [sysMunmap, flushRange, failIf, ofResult, tryMemorySet]
  case vc2 =>
    rename_i before hb hargs start range hrange _ hflush ms' he
    subst hb
    have hunmaps : (Syscall.munmap addr length).unmaps kernel before = some (start, range.2) := by
      simp only [Bool.or_eq_true, decide_eq_true_eq, not_or, not_not] at hargs
      simp [Syscall.unmaps, hrange, flushes, hargs.1, hargs.2, start, hflush, Except.isOk, Except.toBool]
    rw [hunmaps]
    exact ⟨rfl, .unmapRange hw he⟩
  all_goals exact .unchanged ‹_ = process› hw

theorem sysMprotect_kept (addr len : Nat) (prot : BitVec 32) (hw : process.memorySet.WF) :
    KeepsAttachments process none (sysMprotect kernel addr len prot) := by
  mvcgen [sysMprotect, failIf, ofResult, tryMemorySet]
  case vc2 =>
    rename_i before hb _ flags hflags _ _ ms' he
    subst hb
    exact ⟨rfl, .protectRange hw (protToPteFlags_user hflags).1 he⟩
  all_goals exact .unchanged ‹_ = process› hw

theorem sysMadvise_kept (addr len : Nat) (advice : BitVec 32) (hw : process.memorySet.WF) :
    KeepsAttachments process none (sysMadvise addr len advice) := by
  mvcgen [sysMadvise, failIf, ofResult, tryMemorySet]
  case vc3 =>
    rename_i before hb _ _ range _ ms' he
    subst hb
    cases hd : before.memorySet.discardAnonymousRange range.1 range.2
    case error => simp [hd] at he
    case ok discarded =>
      simp only [hd, Except.map_ok, Except.ok.injEq] at he
      subst he
      exact ⟨rfl, .of_policyAt (MemorySet.discardAnonymousRange_wf hw hd)
        (MemorySet.discardAnonymousRange_policyAt hd)⟩
  all_goals exact .unchanged ‹_ = process› hw

theorem pageFault_kept (addr : Nat) (access : Access) (hw : process.memorySet.WF)
    (henv : kernel.env.Lawful (fun _ => True)) :
    KeepsAttachments process none (pageFault kernel addr access) := by
  mvcgen [pageFault, ofResult]
  case vc1 =>
    rename_i before hb result he
    subst hb
    exact ⟨rfl, .of_policyAt (MemorySet.handlePageFault_wf hw henv he)
      (MemorySet.handlePageFault_policyAt hw henv he)⟩
  all_goals exact .unchanged ‹_ = process› hw

theorem growHeap_kept {mappedBreak newMappedEnd : Nat} (hw : ms.WF)
    (h : sysBrk.growHeap ms mappedBreak newMappedEnd = .ok ms') :
    KeptPages ms (if newMappedEnd < mappedBreak then some (newMappedEnd, mappedBreak) else none) ms' := by
  have hwf := growHeap_wf hw h
  simp only [sysBrk.growHeap] at h
  split at h
  case isTrue hlt =>
    split at h
    case isTrue => cases h
    case isFalse => exact .insert hwf (by simp) (MemorySet.insertLazyAreaWithBacking_policyAt hw h)
  case isFalse =>
    split at h
    case isTrue hlt =>
      rw [if_pos hlt]
      exact .unmapRange hw h
    case isFalse =>
      cases h
      exact .refl hw

theorem sysBrk_kept (newBrk : Nat) (hw : process.memorySet.WF) :
    KeepsAttachments process ((Syscall.brk newBrk).unmaps kernel process) (sysBrk kernel newBrk) := by
  mvcgen [sysBrk]
  case vc5 =>
    rename_i before hb _ mappedBreak hargs newMappedEnd halign htop ms' he _
    subst hb
    have hunmaps : (Syscall.brk newBrk).unmaps kernel before =
        if newMappedEnd < mappedBreak then some (newMappedEnd, mappedBreak) else none := by
      simp only [Bool.or_eq_true, decide_eq_true_eq, not_or, Nat.not_lt] at hargs
      simp [Syscall.unmaps, halign, hargs.1, hargs.2, Nat.le_of_not_lt htop, mappedBreak]
    rw [hunmaps]
    exact ⟨rfl, growHeap_kept hw he⟩
  all_goals exact .unchanged ‹_ = process› hw

-- A mapping is not an attachment.
theorem backing_ne_sharedMemory {request : MmapRequest} {fd : Int} {offset : Nat}
    {result : MapAreaBacking × Option (List UInt8) × Bool} (h : request.backing kernel fd offset = .ok result)
    (shmid base offset' : Nat) : result.1 ≠ .sharedMemory shmid base offset' := by
  simp only [MmapRequest.backing] at h
  split at h
  case isTrue =>
    cases h
    dsimp only
    split <;> simp
  case isFalse =>
    split at h
    case h_1 => cases h
    case h_2 =>
      split at h
      case isTrue => cases h
      case isFalse =>
        split at h
        case isTrue => cases h
        case isFalse =>
          split at h
          all_goals
            split at h
            case isTrue =>
              split at h
              case h_1 => cases h
              case h_2 => cases h; simp
            case isFalse => cases h; simp

structure Selected (request : MmapRequest) (range : Nat × Nat) (backing : MapAreaBacking) : Prop where
  user    : request.pteFlags.u ∧ ¬request.pteFlags.cow
  lt      : range.1 < range.2
  backing : ∀ shmid base offset, backing ≠ .sharedMemory shmid base offset

theorem flush_unchanged (request : MmapRequest) (start stop : Nat) :
    Keeps (· = process) (request.flush kernel start stop) := by
  mvcgen [MmapRequest.flush, flushRange, ofResult]

theorem mmapSelected_spec (kernel : Kernel) (process : Process) (addr length : Nat) (prot flagsArg : BitVec 32) (fd : Int) (offset : Nat) :
    ⦃fun before => ⌜before = process⌝⦄
    mmapSelected kernel addr length prot flagsArg fd offset
    ⦃post⟨fun selected after => ⌜after = process ∧ Selected selected.1 selected.2.1 selected.2.2.1⌝,
      fun _ after => ⌜after = process⌝⟩⦄ := by
  mvcgen [mmapSelected, failIf, okOr, ofResult, flush_unchanged]
  case vc7 =>
    rename_i hb _ _ hrequest _ _ _ _ _ _ _ _ hmappable _ hbacking _ _ hafter
    exact ⟨hafter.trans hb, ofArgs_user hrequest, lt_of_mappable (by simpa using hmappable),
      backing_ne_sharedMemory hbacking⟩
  case vc8 =>
    rename_i hb _ _ _ _ _ _ _ _ _ _ _ _ _ _ _ _
    exact fun hafter => hafter.trans hb

-- The range that `mmap` replaces.
def MmapRequest.replaces (request : MmapRequest) (range : Nat × Nat) : Option (Nat × Nat) :=
  if request.mapFixed && !request.noReplace then some range else none

theorem Cleared.kept {request : MmapRequest} {start stop : Nat} {before after : Process}
    (h : Cleared request start stop before after) (hw : before.memorySet.WF) :
    Kept before (request.replaces (start, stop)) after := by
  cases h
  case inl he => exact .unchanged he hw
  case inr h =>
    have ⟨hfixed, ms, hu, he⟩ := h
    subst he
    rw [MmapRequest.replaces, if_pos hfixed]
    exact ⟨rfl, .unmapRange hw hu⟩

theorem insert_kept {request : MmapRequest} {range : Nat × Nat} {backing : MapAreaBacking}
    {bounds : Option (Nat × Nat)} (fileData : Option (List UInt8)) (lazyCleanMmap : Bool)
    (hu : request.pteFlags.u ∧ ¬request.pteFlags.cow)
    (hb : ∀ shmid base offset, backing ≠ .sharedMemory shmid base offset) :
    ⦃fun before => ⌜Kept process bounds before ∧ before.memorySet.RangeFree range.1 range.2⌝⦄
    request.insert range.1 range.2 backing fileData lazyCleanMmap
    ⦃post⟨fun _ after => ⌜Kept process bounds after⌝, fun _ after => ⌜Kept process bounds after⌝⟩⦄ := by
  have hframed {before : Process} (hk : Kept process bounds before)
      (hf : before.memorySet.RangeFree range.1 range.2) :
      KeptPages process.memorySet bounds (before.memorySet.insertFramedAreaWithBacking before.frames range.1
        range.2 request.pteFlags backing).1 := by
    have hw := MemorySet.insertFramedAreaWithBacking_wf before.frames backing hk.pages.wf hf hu.1 hu.2
    cases MemorySet.insertFramedAreaWithBacking_policyAt before.frames hk.pages.wf hu.2
    case inl hp => exact hk.pages.trans (.of_policyAt hw (hp _ _ _))
    case inr hp => exact hk.pages.trans (.insert hw hb (hp _ _ _))
  have hwritten {before : Process} {frames : Frames} {data : List UInt8} (hk : Kept process bounds before)
      (hf : before.memorySet.RangeFree range.1 range.2) :
      KeptPages process.memorySet bounds (MemorySet.writeBytes (before.memorySet.insertFramedAreaWithBacking
        before.frames range.1 range.2 request.pteFlags backing).1 frames range.1 data).1 :=
    (hframed hk hf).trans (.of_policyAt (MemorySet.writeBytesFrom_wf _ _ _ _ _ (hframed hk hf).wf)
      (MemorySet.writeBytesFrom_policyAt ..))
  mvcgen [MmapRequest.insert, onMemorySet, ofResult, tryMemorySet]
  case vc1 =>
    rename_i hk _ he
    have hw := MemorySet.insertLazyAreaWithBacking_wf hk.1.pages.wf hk.2 hu.1 he
    exact ⟨hk.1.segments, hk.1.pages.trans
      (.insert hw hb (MemorySet.insertLazyAreaWithBacking_policyAt hk.1.pages.wf he))⟩
  case vc2 =>
    rename_i hk _ _
    exact hk.1
  case vc3 | vc4 =>
    rename_i hk _ _ _ _ _ _
    exact ⟨hk.1.segments, hwritten hk.1 hk.2⟩
  case vc5 =>
    rename_i hk _ _ _
    exact ⟨hk.1.segments, hframed hk.1 hk.2⟩
  case vc6 =>
    rename_i hk _ _
    exact ⟨hk.1.segments, hframed hk.1 hk.2⟩

-- `sys_mmap` from the point on where the range of the mapping is checked or cleared.
theorem mmapInsert_kept {request : MmapRequest} {selected : Nat × Nat} {backing : MapAreaBacking}
    (arch : Arch) (fileData : Option (List UInt8)) (lazyCleanMmap : Bool) (hs : Selected request selected backing)
    (hw : process.memorySet.WF) :
    KeepsAttachments process (request.replaces selected) (do
      let range ← request.place arch selected.1 selected.2
      request.insert range.1 range.2 backing fileData lazyCleanMmap
      modify fun process => { process with mm := process.mm.advance range.1 range.2 }
      return range.1 : SyscallM Nat) := by
  mvcgen [place_cases, insert_kept]
  case vc1 => exact hs.lt
  case vc2 => exact ‹_ = process› ▸ hw
  case vc3 => exact hs.user
  case vc4 => exact hs.backing
  case vc5 =>
    rename_i hb _ _ hc
    subst hb
    exact ⟨hc.1.kept hw, hc.2⟩
  case vc6 =>
    rename_i hk _
    exact ⟨hk.segments, hk.pages⟩
  case vc7 =>
    rename_i hb _ _
    exact fun he => .unchanged (he.trans hb) hw

-- The request is checked first, and then its range is chosen and filled.
theorem sysMmap_selected (kernel : Kernel) (addr length : Nat) (prot flags : BitVec 32) (fd : Int) (offset : Nat) :
    sysMmap kernel addr length prot flags fd offset =
      mmapSelected kernel addr length prot flags fd offset >>=
        fun (request, selected, backing, fileData, lazyCleanMmap) => do
          let range ← request.place kernel.arch selected.1 selected.2
          request.insert range.1 range.2 backing fileData lazyCleanMmap
          modify fun process => { process with mm := process.mm.advance range.1 range.2 }
          return range.1 := by
  simp only [sysMmap, mmapSelected, bind_assoc, pure_bind]

theorem sysMmap_kept (addr length : Nat) (prot flags : BitVec 32) (fd : Int) (offset : Nat)
    (hw : process.memorySet.WF) :
    Kept process ((Syscall.mmap addr length prot flags fd offset).unmaps kernel process)
      (process.exec (sysMmap kernel addr length prot flags fd offset)).2 := by
  have hspec := mmapSelected_spec kernel process addr length prot flags fd offset
  rw [sysMmap_selected, exec_bind, Syscall.unmaps]
  cases he : process.exec (mmapSelected kernel addr length prot flags fd offset) with
  | mk result after =>
    cases result
    case error =>
      have hafter := error_of_triple hspec rfl he
      exact .unchanged hafter hw
    case ok selected =>
      obtain ⟨request, range, backing, fileData, lazyCleanMmap⟩ := selected
      obtain ⟨hafter, hs⟩ := ok_of_triple hspec rfl he
      subst hafter
      exact run_of_triple (mmapInsert_kept kernel.arch fileData lazyCleanMmap hs hw) rfl

-- What a call of `shmat` that succeeds does. The new attachment takes a range that was free.
structure Attaches (before : Process) (shmid : Nat) (pages : Nat) (range : Option (Nat × Nat)) (base : Nat)
    (after : Process) : Prop where
  pages : ∃ ms, KeptPages before.memorySet range ms ∧ after.memorySet.WF ∧
    (∀ vpn, ShmPage ms.areas vpn (shmid, base) →
      ¬(alignDown base ≤ vpn * pageSize ∧ vpn * pageSize < base + pages * pageSize)) ∧
    (∃ vpn, ShmPage after.memorySet.areas vpn (shmid, base)) ∧
    ∀ vpn attachment, ShmPage after.memorySet.areas vpn attachment ↔ ShmPage ms.areas vpn attachment ∨
      attachment = (shmid, base) ∧ alignDown base ≤ vpn * pageSize ∧ vpn * pageSize < base + pages * pageSize

-- The pages of a range that need not be aligned.
theorem lt_alignUp {stop stop' : Nat} (h : alignUp stop = some stop') (vpn : Nat) :
    vpn * pageSize < stop' ↔ vpn * pageSize < stop := by
  simp only [alignUp, Option.map_eq_some_iff, Usize.checkedAdd_eq_some, pageSize] at h ⊢
  omega

theorem insertShared_attaches {permission : PTEFlags} {base pages : Nat} {frames : List Ppn} {before : Process}
    (after : Process) {range : Option (Nat × Nat)} (hk : KeptPages before.memorySet range ms) (hu : permission.u) (hc : ¬permission.cow)
    (h : ms.insertSharedFramedArea base (base + pages * pageSize) permission (.sharedMemory shmid base 0) frames =
      .ok after.memorySet) : Attaches before shmid pages range base after := by
  have hwf := MemorySet.insertSharedFramedArea_wf hk.wf hu hc h
  obtain ⟨start, stop, hr, hfree⟩ := MemorySet.insertSharedFramedArea_range h
  obtain ⟨hstart, hstop, hlt⟩ := MemorySet.pageRange_eq_some hr
  have hno := (MemorySet.rangeOverlaps_eq_false hk.wf hlt).mp hfree
  -- The pages of the new area are the ones of the attachment.
  have hnew (vpn : Nat) (attachment : Nat × Nat) :
      (∃ w offset, MemorySet.NewAt permission (.sharedMemory shmid base 0) base (base + pages * pageSize) vpn w
        (.sharedMemory attachment.1 attachment.2 offset)) ↔
      attachment = (shmid, base) ∧ alignDown base ≤ vpn * pageSize ∧ vpn * pageSize < base + pages * pageSize := by
    simp only [MemorySet.NewAt, hr, Option.some.injEq, Prod.mk.injEq, MapAreaBacking.page,
      PageBacking.sharedMemory.injEq]
    constructor
    case mp =>
      rintro ⟨w, offset, _, _, ⟨rfl, rfl⟩, h₁, h₂, _, rfl, rfl, _⟩
      exact ⟨rfl, hstart ▸ h₁, (lt_alignUp hstop vpn).mp h₂⟩
    case mpr =>
      rintro ⟨rfl, h₁, h₂⟩
      exact ⟨_, _, start, stop, ⟨rfl, rfl⟩, hstart ▸ h₁, (lt_alignUp hstop vpn).mpr h₂, rfl, rfl, rfl, rfl⟩
  have hpages (vpn : Nat) (attachment : Nat × Nat) : ShmPage after.memorySet.areas vpn attachment ↔
      ShmPage ms.areas vpn attachment ∨ attachment = (shmid, base) ∧ alignDown base ≤ vpn * pageSize ∧
        vpn * pageSize < base + pages * pageSize := by
    rw [← hnew]
    simp only [ShmPage, MemorySet.insertSharedFramedArea_policyAt hk.wf h, exists_or]
  refine ⟨ms, hk, hwf, fun vpn hp hin => ?_, ⟨base / pageSize, (hpages _ _).mpr (.inr ⟨rfl, Nat.le_refl _, ?_⟩)⟩,
    hpages⟩
  case refine_1 =>
    obtain ⟨area, ha, _, h₁, h₂⟩ := shmPage_iff.mp hp
    have := (lt_alignUp hstop vpn).mpr hin.2
    exact hno area ha (MemorySet.overlaps_iff.mpr (by omega))
  case refine_2 =>
    have := (lt_alignUp hstop (base / pageSize)).mp (by rw [hstart] at hlt; exact hlt)
    exact this

-- The first address of an attachment.
def StartsAt (shmaddr : Nat) (shmflg : BitVec 32) (start : Nat) : Prop :=
  shmaddr = 0 ∨ (shmflg &&& Shm.rnd ≠ 0 ∨ shmaddr % pageSize = 0) ∧
    start = if shmflg &&& Shm.rnd ≠ 0 then alignDown shmaddr else shmaddr

theorem shmatStart_spec (shmaddr : Nat) (shmflg : BitVec 32) (mapLen : Nat) :
    ⦃fun before => ⌜before = process⌝⦄ shmatStart kernel shmaddr shmflg mapLen
    ⦃post⟨fun start after => ⌜after = process ∧ StartsAt shmaddr shmflg start⌝,
      fun _ after => ⌜after = process⌝⟩⦄ := by
  mvcgen [shmatStart, failIf, okOr]
  all_goals simp_all [StartsAt]

-- The range that is replaced, once it has been accepted.
theorem shmReplaces_eq {shmaddr start pages : Nat} {shmflg : BitVec 32} (hs : StartsAt shmaddr shmflg start)
    (hlow : pageSize ≤ start) (hmappable : kernel.arch.isUserMappableRange start (start + pages * pageSize))
    (hremap : shmflg &&& Shm.remap ≠ 0) (haddr : shmaddr ≠ 0)
    (hflush : flushes kernel process start (start + pages * pageSize)) :
    shmReplaces kernel process shmaddr shmflg pages = some (start, start + pages * pageSize) := by
  have ⟨hadmissible, hstart⟩ := hs.resolve_left haddr
  simp only [shmReplaces, ← hstart]
  simpa [haddr, hlow, hmappable, hflush] using ⟨hremap, fun h => hadmissible.resolve_left (not_not.mpr h)⟩

theorem shmPlace_spec (process : Process) (remap : Bool) (shmaddr start stop : Nat) (shmflg : BitVec 32) (pages : Nat)
    (hremap : remap → shmflg &&& Shm.remap ≠ 0) (hstart : StartsAt shmaddr shmflg start)
    (hlow : ¬decide (start < pageSize)) (hstop : Usize.checkedAdd start (pages * pageSize) = some stop)
    (hmappable : ¬!kernel.arch.isUserMappableRange start stop) (hw : process.memorySet.WF) :
    KeepsAttachments process (shmReplaces kernel process shmaddr shmflg pages)
      (shmPlace kernel remap shmaddr start stop) := by
  have ⟨he, _⟩ := Usize.checkedAdd_eq_some.mp hstop
  subst he
  mvcgen [shmPlace, flushRange, failIf, ofResult, tryMemorySet]
  case vc2 =>
    rename_i hset before hb haddr _ hflush ms' he
    subst hb
    rw [shmReplaces_eq hstart (by simpa using hlow) (by simpa using hmappable) (hremap hset) (by simpa using haddr)
      (by simp [flushes, hflush, Except.isOk, Except.toBool])]
    exact ⟨rfl, .unmapRange hw he⟩
  all_goals exact .unchanged ‹_ = process› hw

-- An attachment takes the range that was chosen for it.
theorem shmAttach_spec (shmaddr : Nat) (shmflg : BitVec 32) (frames : List Ppn) (hw : process.memorySet.WF) :
    ⦃fun before => ⌜before = process⌝⦄ shmAttach kernel shmid shmaddr shmflg frames
    ⦃post⟨fun base after => ⌜after.segments = process.segments ∧
        Attaches process shmid frames.length (shmReplaces kernel process shmaddr shmflg frames.length) base after⌝,
      fun _ after => ⌜Kept process (shmReplaces kernel process shmaddr shmflg frames.length) after⌝⟩⦄ := by
  have hplace {before : Process} {remap : Bool} {start stop : Nat} :=
    @shmPlace_spec kernel before remap shmaddr start stop shmflg frames.length
  mvcgen [shmAttach, shmatStart_spec, hplace, failIf, okOr, tryMemorySet]
  case vc3 => simp
  case vc4 => exact And.right ‹_ ∧ StartsAt ..›
  case vc8 =>
    rename_i hb _ _ hs _ _ _ _ _
    exact hs.1.trans hb ▸ hw
  case vc9 =>
    rename_i hb _ _ hs _ _ hstop _ pteFlags _ _ hk ms' he after
    obtain ⟨hlen, _⟩ := Usize.checkedAdd_eq_some.mp hstop
    have hbefore := hs.1.trans hb
    subst hbefore hlen
    exact ⟨hk.segments, insertShared_attaches after.2 hk.pages rfl Bool.false_ne_true he⟩
  case vc10 =>
    rename_i hb _ _ hs _ _ _ _ _ _ _ hk _ _
    exact hs.1.trans hb ▸ hk
  case vc11 =>
    rename_i hb _ _ hs _ _ _ _ _ _ _
    exact hs.1.trans hb ▸ id
  case vc13 =>
    rename_i hb _ _
    exact fun he => .unchanged (he.trans hb) hw
  all_goals
    have hs := And.left ‹_ ∧ StartsAt ..›
    exact .unchanged (hs.trans ‹_ = process›) hw

theorem shmat_unmaps {shmaddr : Nat} {shmflg : BitVec 32} {segment : SharedMemorySegment}
    (hs : process.segments.lookup shmid = some segment) (hflags : ¬decide (shmflg &&& ~~~Shm.supportedFlags ≠ 0))
    (hmark : ¬segment.markedForRemove) : (Syscall.shmat shmid shmaddr shmflg).unmaps kernel process =
      shmReplaces kernel process shmaddr shmflg segment.frames.length := by
  simp only [Bool.not_eq_true] at hmark
  simp only [decide_eq_true_eq, not_not] at hflags
  simp [Syscall.unmaps, hs, hflags, hmark]

-- Segments are counted up before the attachment is made, and down again if this fails.
theorem sysShmat_spec (kernel : Kernel) (shmaddr : Nat) (shmflg : BitVec 32) (hw : process.memorySet.WF)
    (hc : Counts next len count process.segments) (hm : Marked [] process.segments)
    (hmax : count shmid < Usize.max) :
    ⦃fun before => ⌜before = process⌝⦄ sysShmat kernel shmid shmaddr shmflg
    ⦃post⟨fun base after => ⌜(∃ segment, (shmid, segment) ∈ process.segments) ∧
        Attaches process shmid (len shmid) ((Syscall.shmat shmid shmaddr shmflg).unmaps kernel process) base after ∧
        Counts next len (Function.update count shmid (count shmid + 1)) after.segments ∧ Marked [] after.segments⌝,
      fun _ after => ⌜KeptPages process.memorySet ((Syscall.shmat shmid shmaddr shmflg).unmaps kernel process)
          after.memorySet ∧ Counts next len count after.segments ∧ Marked [] after.segments⌝⟩⦄ := by
  mvcgen [sysShmat, shmAttach_spec, failIf, okOr]
  case vc3 =>
    rename_i hb _ _ _ _ _
    subst hb
    exact hw
  case vc4 =>
    rename_i before hb hflags segment hs hmark _ base after
    subst hb
    intro hsegments hattaches
    have hmem := mem_of_lookup hs
    rw [shmat_unmaps hs hflags hmark, hsegments]
    have hcounts := hc.attach hm hmax hmem (f := fun segment => { segment with
      attachCount := Usize.saturatingAdd segment.attachCount 1
      lpid := kernel.tgid
      atime := kernel.currentTimeSec }) fun _ => ⟨rfl, rfl⟩
    rw [hc.frames _ _ hmem] at hattaches ⊢
    exact ⟨⟨segment, hmem⟩, ⟨hattaches.pages⟩, hcounts⟩
  case vc5 =>
    rename_i before hb hflags segment hs hmark _ error after hk _
    subst hb
    have hmem := mem_of_lookup hs
    have hkept : (after.setSegment shmid fun segment =>
        { segment with attachCount := segment.attachCount - 1 }).segments =
        (Segments.update (Segments.update before.segments shmid fun segment => { segment with
          attachCount := Usize.saturatingAdd segment.attachCount 1
          lpid := kernel.tgid
          atime := kernel.currentTimeSec }) shmid fun segment =>
          { segment with attachCount := segment.attachCount - 1 }) := by
      rw [Process.setSegment, hk.segments]
      rfl
    rw [shmat_unmaps hs hflags hmark]
    refine ⟨⟨hk.pages.wf, hk.pages.old, hk.pages.kept⟩, ?_⟩
    obtain ⟨hcounts, hmarked⟩ := hc.attach hm hmax hmem (f := fun segment => { segment with
      attachCount := Usize.saturatingAdd segment.attachCount 1
      lpid := kernel.tgid
      atime := kernel.currentTimeSec }) fun _ => ⟨rfl, rfl⟩
    have hpos : 0 < Function.update count shmid (count shmid + 1) shmid := by simp
    have hcounts' := hcounts.detach hpos
      (f := fun segment => { segment with attachCount := segment.attachCount - 1 }) fun _ => ⟨rfl, rfl⟩
    simp only [Function.update_self, Nat.add_sub_cancel, Function.update_idem, Function.update_eq_self] at hcounts'
    refine ⟨hkept ▸ hcounts', hkept ▸ hmarked.update fun segment' hs' hmark' => ?_⟩
    obtain ⟨old, ho, heq⟩ := mem_update.mp hs'
    rw [mem_unique hc.ids ho hmem] at heq
    rw [if_pos rfl] at heq
    subst heq
    exact absurd hmark' hmark
  all_goals
    have hb := ‹_ = process›
    subst hb
    exact ⟨.refl hw, hc, hm⟩

-- A page belongs to a single attachment.
theorem ShmPage.unique {other : Nat × Nat} (hw : ms.WF) (h : ShmPage ms.areas vpn attachment)
    (h' : ShmPage ms.areas vpn other) : attachment = other := by
  have ⟨_, _, view, hv, _, hb⟩ := h
  have ⟨_, _, view', hv', _, hb'⟩ := h'
  rw [← hw.sorted.meaning_eq_some] at hv hv'
  rw [hv] at hv'
  cases hv'
  rw [hb] at hb'
  simp only [PageBacking.sharedMemory.injEq] at hb'
  exact Prod.ext hb'.1 hb'.2.1

theorem unmapRanges_spec (ranges : List (Nat × Nat)) (hw : process.memorySet.WF)
    (hr : ∀ range ∈ ranges, range.1 < range.2 ∧ range.1 % pageSize = 0 ∧ range.2 % pageSize = 0) :
    ⦃fun before => ⌜before = process⌝⦄ unmapRanges ranges
    ⦃post⟨fun _ after => ⌜after.segments = process.segments ∧ after.memorySet.WF ∧
        ∀ vpn attachment, ShmPage after.memorySet.areas vpn attachment ↔
          ShmPage process.memorySet.areas vpn attachment ∧
          ∀ range ∈ ranges, ¬(range.1 ≤ vpn * pageSize ∧ vpn * pageSize < range.2)⌝,
      fun _ _ => ⌜False⌝⟩⦄ := by
  induction ranges generalizing process
  case nil =>
    mvcgen [unmapRanges]
    have hb := ‹_ = process›
    subst hb
    simpa using hw
  case cons range ranges hi =>
    mvcgen [unmapRanges, tryMemorySet, hi]
    case vc1 =>
      have hb := ‹_ = process›
      subst hb
      exact MemorySet.unmapRange_wf hw ‹_ = Except.ok _›
    case vc2 => exact fun range hm => hr range (.tail _ hm)
    case vc3 =>
      rename_i hb ms' he _ after
      subst hb
      intro hsegments hwf hpages
      refine ⟨hsegments, hwf, fun vpn attachment => ?_⟩
      rw [hpages, List.forall_mem_cons, ← and_assoc]
      refine and_congr_left fun _ => ?_
      simp only [ShmPage, MemorySet.unmapRange_policyAt hw he, exists_and_left]
      exact And.comm
    case vc4 =>
      obtain ⟨hlt, hs, he⟩ := hr range (.head _)
      have h := ‹_ = Except.error _›
      simp [MemorySet.unmapRange, hs, he, Nat.not_le_of_lt hlt] at h

-- The ranges of an attachment.
def shmRanges (areas : List MapArea) (shmid base : Nat) : List (Nat × Nat) :=
  areas.filterMap fun area =>
    match area.backing with
    | .sharedMemory areaShmid areaBase _ =>
      if areaShmid = shmid && areaBase = base then some (area.startVa, area.endVa) else none
    | _ => none

theorem mem_shmRanges {base : Nat} {range : Nat × Nat} : range ∈ shmRanges areas shmid base ↔
    ∃ area ∈ areas, (∃ offset, area.backing = .sharedMemory shmid base offset) ∧
      range = (area.startVa, area.endVa) := by
  simp only [shmRanges, List.mem_filterMap]
  refine exists_congr fun area => and_congr_right fun _ => ?_
  cases area.backing
  case sharedMemory areaShmid areaBase offset =>
    simp only [Bool.and_eq_true, decide_eq_true_eq, Option.ite_none_right_eq_some, Option.some.injEq,
      MapAreaBacking.sharedMemory.injEq, exists_and_left, exists_eq', and_true]
    rw [eq_comm (b := range), and_assoc]
  all_goals simp

theorem sysShmdt_spec (kernel : Kernel) (shmaddr : Nat) (hw : process.memorySet.WF) (hc : Counts next len count process.segments)
    (hm : Marked [] process.segments) (hpos : ∀ shmid, count shmid = 0 →
      (shmid, shmaddr) ∉ taskSharedMemoryAttachments process.memorySet) :
    ⦃fun before => ⌜before = process⌝⦄ sysShmdt kernel shmaddr
    ⦃post⟨fun _ after => ⌜∃ shmid, (shmid, shmaddr) ∈ taskSharedMemoryAttachments process.memorySet ∧
        after.memorySet.WF ∧ (∀ vpn attachment, ShmPage after.memorySet.areas vpn attachment ↔
          ShmPage process.memorySet.areas vpn attachment ∧ attachment ≠ (shmid, shmaddr)) ∧
        Counts next len (Function.update count shmid (count shmid - 1)) after.segments ∧ Marked [] after.segments⌝,
      fun _ after => ⌜after = process⌝⟩⦄ := by
  mvcgen [sysShmdt, failIf, okOr, unmapRanges_spec]
  case vc2 =>
    have hb := ‹_ = process›
    subst hb
    exact hw
  case vc3 =>
    rename_i before hb _ areas shmid _
    subst hb
    intro range hr
    obtain ⟨area, ha, _, he⟩ := mem_shmRanges.mp hr
    have hwf := hw.areas area ha
    subst he
    exact ⟨hwf.start_lt_end, hwf.start_aligned, hwf.end_aligned⟩
  case vc4 =>
    rename_i before hb _ areas shmid hfound _ after hafter _ _
    subst hb
    obtain ⟨hsegments, hwf, hpages⟩ := hafter
    have hmem : (shmid, shmaddr) ∈ taskSharedMemoryAttachments before.memorySet := by
      obtain ⟨area, ha, hb⟩ := List.exists_of_findSome?_eq_some hfound
      refine mem_attachmentsFrom.mpr (.inr ⟨area, ha, ?_⟩)
      split at hb
      case h_1 offset hback =>
        simp only [Option.ite_none_right_eq_some, Option.some.injEq] at hb
        exact ⟨offset, by rw [hback, hb.1, hb.2]⟩
      case h_2 => cases hb
    refine ⟨shmid, hmem, hwf, fun vpn attachment => ?_, ?_⟩
    case refine_1 =>
      refine (hpages vpn attachment).trans (and_congr_right fun hp => ?_)
      have hin : (∀ range ∈ shmRanges before.memorySet.areas shmid shmaddr,
          ¬(range.1 ≤ vpn * pageSize ∧ vpn * pageSize < range.2)) ↔
          ¬ShmPage before.memorySet.areas vpn (shmid, shmaddr) := by
        rw [shmPage_iff]
        simp only [mem_shmRanges]
        constructor
        case mp =>
          rintro h ⟨area, ha, hb, hi⟩
          exact h _ ⟨area, ha, hb, rfl⟩ hi
        case mpr =>
          rintro h _ ⟨area, ha, hb, rfl⟩ hi
          exact h ⟨area, ha, hb, hi⟩
      refine hin.trans (not_congr ?_)
      constructor
      case mp => exact fun hp' => hp.unique hw hp'
      case mpr =>
        rintro rfl
        exact hp
    case refine_2 =>
      have hcount : 0 < count shmid := Nat.pos_of_ne_zero fun h => hpos shmid h hmem
      have hreleased := hc.release hm hcount (f := fun segment => { segment with
        attachCount := segment.attachCount - 1
        lpid := kernel.tgid
        dtime := kernel.currentTimeSec }) fun _ => ⟨rfl, rfl⟩
      rw [← hsegments] at hreleased
      exact hreleased

end Calls

end WllOs
