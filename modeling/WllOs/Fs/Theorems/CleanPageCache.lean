import WllOs.Library.Simulation
import WllOs.Fs.CleanPageCache

namespace WllOs.Fs

variable {φ : Type*}

namespace CachedCleanFolio

variable {folio : CachedCleanFolio φ}

theorem countP_eq_sum {α : Type*} (p : α → Bool) (xs : List α) :
    xs.countP p = (xs.map fun x => (p x).toNat).sum := by
  induction xs
  case nil => rfl
  case cons x xs hi => cases hp : p x <;> simp [hp, hi, Nat.add_comm]

theorem pageCount_eq (folio : CachedCleanFolio φ) : folio.pageCount = ∑ slot, (folio slot).isSome.toNat := by
  rw [pageCount, frames, countP_eq_sum, List.map_ofFn, List.sum_ofFn]
  rfl

theorem pageCount_update (slot : Fin CLEAN_PAGE_FOLIO_PAGES) (frame : φ) :
    pageCount (Function.update folio slot (some frame)) =
      folio.pageCount + if (folio slot).isNone then 1 else 0 := by
  have h := Finset.add_sum_erase Finset.univ (fun slot => (folio slot).isSome.toNat) (Finset.mem_univ slot)
  have h' := Finset.add_sum_erase Finset.univ
    (fun slot' => (Function.update folio slot (some frame) slot').isSome.toNat) (Finset.mem_univ slot)
  have he : ∑ slot' ∈ Finset.univ.erase slot, (Function.update folio slot (some frame) slot').isSome.toNat =
      ∑ slot' ∈ Finset.univ.erase slot, (folio slot').isSome.toNat := by
    apply Finset.sum_congr rfl
    intro slot' hm
    rw [Function.update_of_ne (Finset.ne_of_mem_erase hm)]
  rw [pageCount_eq, pageCount_eq, ← h, ← h', he]
  cases hs : folio slot <;> simp [Nat.add_comm]

theorem pageCount_split (gone : Fin CLEAN_PAGE_FOLIO_PAGES → Prop) [DecidablePred gone] :
    pageCount (fun slot => if gone slot then folio slot else none) +
      pageCount (fun slot => if gone slot then none else folio slot) = folio.pageCount := by
  simp only [pageCount_eq, ← Finset.sum_add_distrib]
  apply Finset.sum_congr rfl
  intro slot _
  split <;> simp

theorem pageCount_pos (h : ¬folio.isEmpty) : 0 < folio.pageCount := by
  simpa [pageCount, isEmpty, List.countP_pos_iff, ← Option.isSome_iff_ne_none] using h

theorem isEmpty_iff : folio.isEmpty ↔ ∀ slot, folio slot = none := by
  simp [isEmpty, frames]

end CachedCleanFolio

namespace CleanPageKey

theorem folioKey_add (ino : Nat) {start slot : Nat} (ha : start % CLEAN_PAGE_FOLIO_PAGES = 0)
    (hs : slot < CLEAN_PAGE_FOLIO_PAGES) : folioKey ⟨ino, start + slot⟩ = ⟨ino, start⟩ ∧
      folioSlot ⟨ino, start + slot⟩ = ⟨slot, hs⟩ := by
  have h16 : CLEAN_PAGE_FOLIO_PAGES = 16 := rfl
  simp only [folioKey, folioSlot, CleanPageFolioKey.mk.injEq, true_and, CLEAN_PAGE_FOLIO_PAGES] at ha ⊢
  exact ⟨by omega, Fin.ext (by dsimp only; omega)⟩

-- Pages of a folio differ in their slots.
theorem eq_of_folioKey {key key' : CleanPageKey} (hk : key.folioKey = key'.folioKey)
    (hs : key.folioSlot = key'.folioSlot) : key = key' := by
  cases key
  cases key'
  simp only [folioKey, folioSlot, CleanPageFolioKey.mk.injEq, Fin.mk.injEq, mk.injEq, CLEAN_PAGE_FOLIO_PAGES] at *
  omega

end CleanPageKey

namespace FolioLru

variable {lru : FolioLru φ} {key : CleanPageFolioKey} {ino start n maxPages : Nat}

theorem pagesFrom_eq_nil (h : Usize.max < start) : pagesFrom ino start n = [] := by
  simp only [pagesFrom, List.filter_eq_nil_iff, List.mem_map, decide_eq_true_eq]
  intro key ⟨i, _, he⟩
  rw [← he]
  dsimp only
  omega

theorem pagesFrom_succ : pagesFrom ino start (n + 1) =
    if start ≤ Usize.max then ⟨ino, start⟩ :: pagesFrom ino (start + 1) n else [] := by
  split
  case isTrue h =>
    have hc : (fun i => (⟨ino, start + i⟩ : CleanPageKey)) ∘ Nat.succ = fun i => ⟨ino, start + 1 + i⟩ := by
      funext i
      simp only [Function.comp_apply, CleanPageKey.mk.injEq, true_and]
      omega
    rw [pagesFrom, List.range_succ_eq_map, List.map_cons, List.map_map, hc, List.filter_cons_of_pos (by simpa using h)]
    rfl
  case isFalse h => exact pagesFrom_eq_nil (Nat.not_le.mp h)

-- A run is made of its first pages and the run behind them.
theorem takeWhile_pagesFrom_add {p : CleanPageKey → Bool} (hn : n ≤ maxPages)
    (h : ∀ i < n, start + i ≤ Usize.max ∧ p ⟨ino, start + i⟩) :
    (pagesFrom ino start maxPages).takeWhile p = ((List.range n).map fun i => ⟨ino, start + i⟩) ++
      (pagesFrom ino (start + n) (maxPages - n)).takeWhile p := by
  induction n generalizing start maxPages
  case zero => simp
  case succ n hi =>
    obtain ⟨rest, rfl⟩ := Nat.exists_eq_add_of_le' hn
    have ha (i : Nat) : start + 1 + i = start + (i + 1) := by omega
    have hc : (fun i => (⟨ino, start + i⟩ : CleanPageKey)) ∘ Nat.succ = fun i => ⟨ino, start + 1 + i⟩ := by
      funext i
      rw [ha]
      rfl
    have ⟨hs, hp⟩ := h 0 (Nat.zero_lt_succ n)
    have hrest := @hi (start + 1) (rest + n) (by omega) fun i hlt => by
      rw [ha]
      exact h (i + 1) (by omega)
    rw [Nat.add_zero] at hs hp
    rw [← Nat.add_assoc, pagesFrom_succ, if_pos hs, List.takeWhile_cons_of_pos hp, hrest, List.range_succ_eq_map,
      List.map_cons, List.map_map, hc, ha, Nat.add_sub_cancel, Nat.add_assoc, Nat.add_sub_cancel]
    rfl

theorem takeWhile_pagesFrom_nil {p : CleanPageKey → Bool} (h : maxPages = 0 ∨ Usize.max < start ∨ ¬p ⟨ino, start⟩) :
    (pagesFrom ino start maxPages).takeWhile p = [] := by
  cases maxPages
  case zero => rfl
  case succ n =>
    rw [pagesFrom_succ]
    split
    case isTrue hs =>
      have hp : ¬p ⟨ino, start⟩ := by
        rcases h with h | h | h
        · omega
        · omega
        · exact h
      exact List.takeWhile_cons_of_neg hp
    case isFalse => rfl

theorem use_use (h : lru.recency.Nodup) (key : CleanPageFolioKey) : (lru.use key).use key = lru.use key := by
  have hn : key ∉ lru.recency.erase key := h.not_mem_erase
  simp [use, List.erase_append_right _ hn]

theorem foldl_use_replicate (h : lru.recency.Nodup) (key : CleanPageFolioKey) (n : Nat) :
    (List.replicate (n + 1) key).foldl use lru = lru.use key := by
  induction n
  case zero => rfl
  case succ n hi =>
    rw [List.replicate_succ', List.foldl_append, hi]
    exact use_use h key

-- Only pages that are there matter.
theorem drop_congr {p q : CleanPageKey → Bool} (h : ∀ key, (lru.pages key).isSome → p key = q key) :
    lru.drop p = lru.drop q := by
  have hpages : (fun key => if p key then none else lru.pages key) = fun key => if q key then none else lru.pages key := by
    funext key
    cases hp : lru.pages key
    case none => simp
    case some => rw [h key (by simp [hp])]
  simp only [drop, hpages]

theorem drop_drop (p q : CleanPageKey → Bool) : (lru.drop p).drop q = lru.drop fun key => q key || p key := by
  have hpages : (fun key => if q key then none else if p key then none else lru.pages key) =
      fun key => if q key || p key then none else lru.pages key := by
    funext key
    cases q key <;> simp
  simp only [drop, List.filter_filter, hpages, FolioLru.mk.injEq, true_and]
  apply List.filter_congr
  intro key _
  simp only [Bool.and_eq_left_iff_imp, List.any_eq_true, folioPages, List.mem_map, List.mem_range]
  intro ⟨_, ⟨slot, hs, he⟩, hsome⟩
  refine ⟨_, ⟨slot, hs, rfl⟩, ?_⟩
  rw [← he] at hsome
  split at hsome
  case isTrue => cases hsome
  case isFalse hn =>
    rw [if_neg (by simp_all)]
    exact hsome

theorem foldl_drop (gone : CleanPageFolioKey → CleanPageKey → Bool) (victims : List CleanPageFolioKey)
    (p : CleanPageKey → Bool) :
    victims.foldl (fun lru key => lru.drop (gone key)) (lru.drop p) =
      lru.drop fun page => victims.any (gone · page) || p page := by
  induction victims generalizing p
  case nil => rfl
  case cons key victims hi =>
    rw [List.foldl_cons, drop_drop, hi]
    congr 1
    funext page
    simp only [List.any_cons, Bool.or_comm, Bool.or_left_comm, Bool.or_assoc]

end FolioLru

namespace CleanPageCache

variable {cache cache' : CleanPageCache φ} {lru : FolioLru φ} {limit : Nat}

-- The invariant that relates a cache to what it is for.
structure Represents (limit : Nat) (cache : CleanPageCache φ) (lru : FolioLru φ) : Prop
    extends WellFormed cache limit where
  before : cache.folios.Before cache.nextAge
  aligned : ∀ key ∈ cache.folios.entries, key.startPageIdx % CLEAN_PAGE_FOLIO_PAGES = 0
  recency : cache.folios.Recency lru.recency
  frame : ∀ key, cache.frame key = lru.pages key

theorem Represents.new : Represents limit (new : CleanPageCache φ) .new where
  linked := .empty
  count := rfl
  le_limit := Nat.zero_le _
  nonempty key folio h := by simp [CleanPageCache.new, AgedMap.empty, AgedMap.lookup] at h
  before key entry h := by simp [CleanPageCache.new, AgedMap.empty] at h
  aligned key h := absurd h Finmap.notMem_empty
  recency := .empty
  frame key := by simp [CleanPageCache.frame, CleanPageCache.new, AgedMap.empty, AgedMap.lookup, FolioLru.new]

theorem frame_of_lookup {key : CleanPageFolioKey} {folio : CachedCleanFolio φ}
    (h : cache.folios.lookup key = some folio) (ha : key.startPageIdx % CLEAN_PAGE_FOLIO_PAGES = 0)
    (slot : Fin CLEAN_PAGE_FOLIO_PAGES) : cache.frame ⟨key.ino, key.startPageIdx + slot⟩ = folio slot := by
  have ⟨hk, hs⟩ := CleanPageKey.folioKey_add key.ino ha slot.isLt
  rw [frame, hk, hs, h]
  rfl

theorem Represents.folioPages (h : Represents limit cache lru) {key : CleanPageFolioKey} {folio : CachedCleanFolio φ}
    (hl : cache.folios.lookup key = some folio) : lru.folioPages key = folio.frames := by
  have ha := h.aligned key (AgedMap.mem_iff.mpr ⟨folio, hl⟩)
  rw [FolioLru.folioPages, CachedCleanFolio.frames]
  apply List.ext_getElem
  · simp
  · intro slot h₁ h₂
    have hs : slot < CLEAN_PAGE_FOLIO_PAGES := by simpa using h₂
    rw [List.getElem_map, List.getElem_range, List.getElem_ofFn, ← h.frame]
    exact frame_of_lookup hl ha ⟨slot, hs⟩

theorem Represents.count_eq (h : Represents limit cache lru) : lru.count = cache.pageCount := by
  rw [h.count, h.recency.weight, FolioLru.count]
  congr 1
  apply List.map_congr_left
  intro key hk
  have ⟨folio, hl⟩ := AgedMap.mem_iff.mp ((h.recency.mem key).mp hk)
  rw [h.folioPages hl, hl]
  rfl

variable (cache) in
theorem frame_use (key : CleanPageFolioKey) (folio : CachedCleanFolio φ) (page : CleanPageKey) :
    (cache.use key folio).frame page = if page.folioKey = key then folio page.folioSlot else cache.frame page := by
  simp only [frame, use]
  split
  case isTrue h => simp [h]
  case isFalse h => rw [AgedMap.lookup_set_of_ne h]

-- Using a folio does not change its frames.
theorem Represents.use (h : Represents limit cache lru) {key : CleanPageFolioKey} {folio : CachedCleanFolio φ}
    (hl : cache.folios.lookup key = some folio) :
    Represents limit (cache.use key folio) (lru.use key) where
  linked := h.linked.set key folio cache.nextAge
  count := by
    have := cache.folios.weight_set CachedCleanFolio.pageCount key folio cache.nextAge
    rw [hl] at this
    simp only [CleanPageCache.use, h.count]
    simp only [Option.elim] at this
    omega
  le_limit := h.le_limit
  nonempty key' folio' hl' := by
    by_cases hk : key' = key
    case pos =>
      subst hk
      simp only [CleanPageCache.use, AgedMap.lookup_set, Option.some.injEq] at hl'
      exact h.nonempty key' folio' (by rw [hl, hl'])
    case neg =>
      rw [CleanPageCache.use, AgedMap.lookup_set_of_ne hk] at hl'
      exact h.nonempty key' folio' hl'
  before := h.before.set
  aligned key' hk := by
    obtain hk | hk := Finmap.mem_insert.mp hk
    case inl => exact hk ▸ h.aligned key (AgedMap.mem_iff.mpr ⟨folio, hl⟩)
    case inr => exact h.aligned key' hk
  recency := h.recency.set h.before key folio
  frame page := by
    rw [frame_use]
    split
    case isTrue he =>
      rw [FolioLru.use, ← h.frame, CleanPageCache.frame, he, hl]
      rfl
    case isFalse => exact h.frame page

theorem get_spec (h : Represents limit cache lru) (key : CleanPageKey) :
    (cache.get key).fst = lru.pages key ∧
      Represents limit (cache.get key).snd (if (lru.pages key).isSome then lru.use key.folioKey else lru) := by
  rw [← h.frame, frame, get]
  cases hl : cache.folios.lookup key.folioKey
  case none => exact ⟨rfl, h⟩
  case some folio =>
    obtain hf | ⟨frame, hf⟩ := Option.eq_none_or_eq_some (folio key.folioSlot)
    case inl =>
      simp only [Option.bind_some, hf]
      exact ⟨trivial, h⟩
    case inr =>
      simp only [Option.bind_some, hf]
      exact ⟨trivial, h.use hl⟩

theorem uncachedPrefixLen_spec (h : Represents limit cache lru) (ino start maxPages : Nat) :
    cache.uncachedPrefixLen ino start maxPages = (lru.uncachedRun ino start maxPages).length := by
  induction maxPages generalizing start
  case zero => rw [uncachedPrefixLen, if_pos (.inl rfl)]; rfl
  case succ n hi =>
    rw [uncachedPrefixLen, FolioLru.uncachedRun]
    split
    case isTrue hs => rw [FolioLru.takeWhile_pagesFrom_nil (by omega)]; rfl
    case isFalse hs =>
      split
      case isTrue hf =>
        rw [h.frame] at hf
        rw [FolioLru.takeWhile_pagesFrom_nil (.inr (.inr (by simpa using Option.isSome_iff_ne_none.mp hf)))]
        rfl
      case isFalse hf =>
        rw [h.frame, Option.not_isSome_iff_eq_none] at hf
        rw [FolioLru.pagesFrom_succ, if_pos (by omega), List.takeWhile_cons_of_pos (by simp [hf]), Nat.add_sub_cancel, hi]
        rfl

theorem folioRun_spec {folio : CachedCleanFolio φ} {slot remaining i : Nat}
    (h : i < (folioRun folio slot remaining).length) : i < remaining ∧ ∃ hs : slot + i < CLEAN_PAGE_FOLIO_PAGES,
      folio ⟨slot + i, hs⟩ = some (folioRun folio slot remaining)[i] := by
  have hsome (xs : List (Option φ)) (hx : ∀ x ∈ xs, x.isSome) : xs = xs.reduceOption.map some := by
    induction xs
    case nil => rfl
    case cons x xs hxs =>
      obtain ⟨frame, rfl⟩ := Option.isSome_iff_exists.mp (hx x List.mem_cons_self)
      rw [List.reduceOption_cons_of_some, List.map_cons, ← hxs fun x hm => hx x (List.mem_cons_of_mem _ hm)]
  have hr := hsome _ (List.all_eq_true.mp (List.all_takeWhile (p := Option.isSome)
    (l := (folio.frames.drop slot).take remaining)))
  have hp : (folioRun folio slot remaining).map some <+: (folio.frames.drop slot).take remaining := by
    rw [folioRun, ← hr]
    exact List.takeWhile_prefix _
  have hlen := hp.length_le
  have hget := hp.getElem (by simpa using h)
  simp only [List.length_map, List.length_take, List.length_drop, CachedCleanFolio.frames, List.length_ofFn] at hlen
  simp only [List.getElem_map, List.getElem_take, List.getElem_drop, CachedCleanFolio.frames, List.getElem_ofFn] at hget
  exact ⟨by omega, by omega, hget.symm⟩

-- A page of the folio that a run starts in.
theorem getRun_page {ino start i : Nat} {folio : CachedCleanFolio φ}
    (hl : cache.folios.lookup (CleanPageKey.folioKey ⟨ino, start⟩) = some folio) (hs : start ≤ Usize.max)
    (hi : (CleanPageKey.folioSlot ⟨ino, start⟩ : Nat) + i < CLEAN_PAGE_FOLIO_PAGES) :
    start + i ≤ Usize.max ∧ CleanPageKey.folioKey ⟨ino, start + i⟩ = CleanPageKey.folioKey ⟨ino, start⟩ ∧
      cache.frame ⟨ino, start + i⟩ = folio ⟨_, hi⟩ := by
  have hmax : Usize.max % 16 = 15 := by simp [Usize.max]
  have h16 : CLEAN_PAGE_FOLIO_PAGES = 16 := rfl
  have hm : (CleanPageKey.folioSlot ⟨ino, start⟩ : Nat) = start % 16 := rfl
  have ha : (start - start % 16) % CLEAN_PAGE_FOLIO_PAGES = 0 := by
    rw [h16]
    omega
  obtain ⟨hk, hslot⟩ := CleanPageKey.folioKey_add ino ha hi
  have he : start - start % 16 + ((CleanPageKey.folioSlot ⟨ino, start⟩ : Nat) + i) = start + i := by omega
  rw [he] at hk hslot
  have hkey : CleanPageKey.folioKey ⟨ino, start + i⟩ = CleanPageKey.folioKey ⟨ino, start⟩ := hk
  refine ⟨by omega, hkey, ?_⟩
  rw [frame, hkey, hslot, hl]
  rfl

theorem getRun_spec (h : Represents limit cache lru) (ino start maxPages : Nat) :
    (cache.getRun ino start maxPages).fst = ((lru.run ino start maxPages).map lru.pages).reduceOption ∧
      Represents limit (cache.getRun ino start maxPages).snd
        (((lru.run ino start maxPages).map CleanPageKey.folioKey).foldl FolioLru.use lru) := by
  induction maxPages using Nat.strong_induction_on generalizing cache lru start
  case h maxPages hi =>
    have hnil (hn : maxPages = 0 ∨ Usize.max < start ∨ ¬(cache.frame ⟨ino, start⟩).isSome) :
        lru.run ino start maxPages = [] := by
      apply FolioLru.takeWhile_pagesFrom_nil
      rwa [← h.frame]
    rw [getRun]
    split
    case isTrue hs =>
      rw [hnil (by omega)]
      exact ⟨rfl, h⟩
    case isFalse hs =>
      dsimp only
      cases hl : cache.folios.lookup (CleanPageKey.folioKey ⟨ino, start⟩)
      case none =>
        rw [hnil (.inr (.inr (by simp [frame, hl])))]
        exact ⟨rfl, h⟩
      case some folio =>
        have hframe : cache.frame ⟨ino, start⟩ = folio (CleanPageKey.folioSlot ⟨ino, start⟩) := by simp [frame, hl]
        dsimp only
        split
        case isFalse hf =>
          rw [hnil (.inr (.inr (by rwa [hframe])))]
          exact ⟨rfl, h⟩
        case isTrue hf =>
          have hpos : 0 < (folioRun folio _ maxPages).length := folioRun_pos folio _ hf (by omega)
          have hrun (i : Nat) := @folioRun_spec _ folio (CleanPageKey.folioSlot ⟨ino, start⟩) maxPages i
          generalize folioRun folio (CleanPageKey.folioSlot ⟨ino, start⟩) maxPages = frames at hpos hrun ⊢
          have hchunk (i : Nat) (hlt : i < frames.length) := getRun_page hl (by omega) (hrun i hlt).right.fst
          have hle : frames.length ≤ maxPages := by
            have := (hrun (frames.length - 1) (by omega)).left
            omega
          have hpages (i : Nat) (hlt : i < frames.length) : lru.pages ⟨ino, start + i⟩ = some frames[i] := by
            rw [← h.frame, (hchunk i hlt).right.right]
            exact (hrun i hlt).right.snd
          have hsplit : lru.run ino start maxPages = ((List.range frames.length).map fun i => ⟨ino, start + i⟩) ++
              lru.run ino (start + frames.length) (maxPages - frames.length) :=
            FolioLru.takeWhile_pagesFrom_add hle fun i hlt => ⟨(hchunk i hlt).left, by simp [hpages i hlt]⟩
          have hframes : ((List.range frames.length).map fun i => (⟨ino, start + i⟩ : CleanPageKey)).map lru.pages =
              frames.map some := by
            apply List.ext_getElem
            · simp
            · intro i h₁ h₂
              simpa using hpages i (by simpa using h₂)
          have hkeys : ((List.range frames.length).map fun i => (⟨ino, start + i⟩ : CleanPageKey)).map
              CleanPageKey.folioKey = List.replicate frames.length (CleanPageKey.folioKey ⟨ino, start⟩) := by
            apply List.ext_getElem
            · simp
            · intro i h₁ h₂
              simpa using (hchunk i (by simpa using h₂)).right.left
          have ⟨hrest, hrep⟩ := hi (maxPages - frames.length) (by omega) (h.use hl) (start + frames.length)
          have ⟨n, hn⟩ := Nat.exists_eq_succ_of_ne_zero (Nat.ne_of_gt hpos)
          rw [hsplit, List.map_append, List.map_append, hframes, hkeys, List.foldl_append, List.reduceOption_append]
          have hsome : (frames.map some).reduceOption = frames := by simp [List.reduceOption]
          have huse : (List.replicate frames.length (CleanPageKey.folioKey ⟨ino, start⟩)).foldl FolioLru.use lru =
              lru.use (CleanPageKey.folioKey ⟨ino, start⟩) := by
            rw [hn]
            exact FolioLru.foldl_use_replicate h.recency.nodup _ n
          rw [hsome, huse]
          exact ⟨congrArg (frames ++ ·) hrest, hrep⟩

-- Pages that go, and their folios with the last of them.
theorem Represents.drop (h : Represents limit cache lru) {gone : CleanPageKey → Bool}
    (hl : cache'.folios.Linked) (hn : cache'.nextAge = cache.nextAge)
    (ha : ∀ key entry, cache'.folios.entries.lookup key = some entry →
      ∃ old, cache.folios.entries.lookup key = some old ∧ old.lastUsed = entry.lastUsed)
    (hne : ∀ key folio, cache'.folios.lookup key = some folio → ¬folio.isEmpty)
    (hc : cache'.pageCount = cache'.folios.weight CachedCleanFolio.pageCount) (hle : cache'.pageCount ≤ cache.pageCount)
    (hf : ∀ key, cache'.frame key = if gone key then none else cache.frame key) :
    Represents limit cache' (lru.drop gone) := by
  have haligned (key : CleanPageFolioKey) (hk : key ∈ cache'.folios.entries) :
      key.startPageIdx % CLEAN_PAGE_FOLIO_PAGES = 0 := by
    have ⟨entry, he⟩ := Finmap.mem_iff.mp hk
    have ⟨old, hold, _⟩ := ha key entry he
    exact h.aligned key (Finmap.mem_of_lookup_eq_some hold)
  have hframe (key : CleanPageKey) : cache'.frame key = (lru.drop gone).pages key := by
    rw [hf, FolioLru.drop, h.frame]
  refine ⟨⟨hl, hc, Nat.le_trans hle h.le_limit, hne⟩, fun key entry he => ?_, haligned, ?_, hframe⟩
  · have ⟨old, hold, he⟩ := ha key entry he
    rw [← he, hn]
    exact h.before key old hold
  · have hr := h.recency.restrict ha
    have hfilter : (lru.drop gone).recency = lru.recency.filter (· ∈ cache'.folios.entries) := by
      apply List.filter_congr
      intro key hk
      rw [Bool.eq_iff_iff, decide_eq_true_eq, List.any_eq_true]
      constructor
      case mp =>
        intro ⟨_, hm, hsome⟩
        have ⟨slot, hs, he⟩ := List.mem_map.mp hm
        have ha := h.aligned key ((h.recency.mem key).mp hk)
        have hkey := (CleanPageKey.folioKey_add key.ino ha (List.mem_range.mp hs)).left
        have hpage : (cache'.frame ⟨key.ino, key.startPageIdx + slot⟩).isSome := by
          rw [hframe]
          rw [← he] at hsome
          exact hsome
        rw [CleanPageCache.frame, hkey] at hpage
        cases hlookup : cache'.folios.lookup key
        case none => simp [hlookup] at hpage
        case some folio => exact AgedMap.mem_iff.mpr ⟨folio, hlookup⟩
      case mpr =>
        intro hk
        have ⟨folio, hlookup⟩ := AgedMap.mem_iff.mp hk
        have hempty := mt CachedCleanFolio.isEmpty_iff.mpr (hne key folio hlookup)
        have ⟨slot, hs⟩ := Classical.not_forall.mp hempty
        refine ⟨_, List.mem_map.mpr ⟨slot, List.mem_range.mpr slot.isLt, rfl⟩, ?_⟩
        have hpage := frame_of_lookup hlookup (haligned key hk) slot
        rw [hframe] at hpage
        simp only [FolioLru.drop] at hpage ⊢
        rw [hpage]
        exact Option.isSome_iff_ne_none.mpr hs
    rw [hfilter]
    exact hr

-- Some slots of a folio are emptied, and the folio goes when none of them is left.
theorem Represents.emptySlots (h : Represents limit cache lru) {key : CleanPageFolioKey} {folio kept : CachedCleanFolio φ}
    (hl : cache.folios.lookup key = some folio) (gone : Fin CLEAN_PAGE_FOLIO_PAGES → Prop) [DecidablePred gone]
    (hk : kept = fun slot => if gone slot then none else folio slot) {pages : Nat}
    (hp : pages + kept.pageCount = folio.pageCount) :
    Represents limit
      { cache with
        folios := if kept.isEmpty then cache.folios.remove key else cache.folios.update key kept
        pageCount := cache.pageCount - pages }
      (lru.drop fun page => page.folioKey = key ∧ gone page.folioSlot) := by
  have hsome : (cache.folios.lookup key).isSome := by simp [hl]
  have hgone (page : CleanPageKey) (hpage : page.folioKey = key) : kept page.folioSlot =
      if page.folioKey = key ∧ gone page.folioSlot then none else cache.frame page := by
    simp [hk, hpage, CleanPageCache.frame, hl]
  have hcount : cache.pageCount = cache.folios.weight CachedCleanFolio.pageCount := h.count
  split
  case isTrue he =>
    have hempty := CachedCleanFolio.isEmpty_iff.mp he
    have hzero : kept.pageCount = 0 := by simp [CachedCleanFolio.pageCount_eq, hempty]
    have hw := cache.folios.weight_remove CachedCleanFolio.pageCount key
    rw [hl, Option.elim_some] at hw
    apply h.drop
    case hl => exact h.linked.remove key
    case hn => rfl
    case ha => exact fun _ _ he => AgedMap.lastUsed_remove he
    case hne =>
      intro key' folio' hl'
      have hne : key' ≠ key := by
        intro hkey
        subst hkey
        simp at hl'
      rw [AgedMap.lookup_remove_of_ne hne] at hl'
      exact h.nonempty key' folio' hl'
    case hc =>
      dsimp only
      omega
    case hle => exact Nat.sub_le _ _
    case hf =>
      intro page
      by_cases hpage : page.folioKey = key
      case pos => simpa [CleanPageCache.frame, hpage, hempty] using hgone page hpage
      case neg => simp [CleanPageCache.frame, hpage, AgedMap.lookup_remove_of_ne hpage]
  case isFalse he =>
    have hw := cache.folios.weight_update CachedCleanFolio.pageCount key kept hsome
    rw [hl, Option.elim_some] at hw
    apply h.drop
    case hl => exact h.linked.update key kept
    case hn => rfl
    case ha => exact fun _ _ he => AgedMap.lastUsed_update he
    case hne =>
      intro key' folio' hl'
      by_cases hne : key' = key
      case pos =>
        rw [hne, AgedMap.lookup_update hsome, Option.some.injEq] at hl'
        rwa [← hl']
      case neg =>
        rw [AgedMap.lookup_update_of_ne hne] at hl'
        exact h.nonempty key' folio' hl'
    case hc =>
      dsimp only
      omega
    case hle => exact Nat.sub_le _ _
    case hf =>
      intro page
      by_cases hpage : page.folioKey = key
      case pos => simpa [CleanPageCache.frame, hpage, AgedMap.lookup_update hsome] using hgone page hpage
      case neg => simp [CleanPageCache.frame, hpage, AgedMap.lookup_update_of_ne hpage]

theorem Represents.invalidateFolio (h : Represents limit cache lru) (key : CleanPageFolioKey) :
    Represents limit (cache.invalidateFolio key) (lru.drop fun page => page.folioKey = key) := by
  rw [CleanPageCache.invalidateFolio]
  cases hl : cache.folios.lookup key
  case none =>
    apply h.drop h.linked rfl (fun _ entry he => ⟨entry, he, rfl⟩) h.nonempty h.count (Nat.le_refl _)
    intro page
    split
    case isTrue hk => simp [CleanPageCache.frame, of_decide_eq_true hk, hl]
    case isFalse => rfl
  case some folio =>
    have hempty : CachedCleanFolio.isEmpty (fun _ => none : CachedCleanFolio φ) :=
      CachedCleanFolio.isEmpty_iff.mpr fun _ => rfl
    have hcount : folio.pageCount + CachedCleanFolio.pageCount (fun _ => none : CachedCleanFolio φ) =
        folio.pageCount := by simp [CachedCleanFolio.pageCount_eq]
    have hi := h.emptySlots hl (fun _ => True) (by simp) hcount
    simpa only [hempty, if_true, and_true] using hi

-- The oldest folio is the first one.
theorem Represents.evictOne (h : Represents limit cache lru) : Represents limit cache.evictOne lru.evict := by
  have ho := h.recency.oldest h.linked
  rw [CleanPageCache.evictOne, FolioLru.evict, ← ho]
  cases hold : cache.folios.oldest
  case none => exact h
  case some aged =>
    have hk : (ofLex aged).snd ∈ lru.recency := by
      rw [hold] at ho
      exact List.mem_of_head? ho.symm
    have ⟨folio, hl⟩ := AgedMap.mem_iff.mp ((h.recency.mem _).mp hk)
    have hi := h.invalidateFolio (ofLex aged).snd
    simp only [CleanPageCache.invalidateFolio, hl] at hi
    simp only [hl, Option.map_some, h.linked.removeOldest_eq hold]
    exact hi

-- The slots of the pages between two indices.
theorem folioSlot_iff {first last : Nat} {page : CleanPageKey} (hs : page.folioKey.startPageIdx ≤ last) :
    (first - page.folioKey.startPageIdx ≤ page.folioSlot ∧
      page.folioSlot ≤ min (last - page.folioKey.startPageIdx) (CLEAN_PAGE_FOLIO_PAGES - 1)) ↔
        first ≤ page.pageIdx ∧ page.pageIdx ≤ last := by
  have h16 : CLEAN_PAGE_FOLIO_PAGES = 16 := rfl
  have hslot : (page.folioSlot : Nat) = page.pageIdx % 16 := rfl
  have hstart : page.folioKey.startPageIdx = page.pageIdx - page.pageIdx % 16 := rfl
  omega

theorem Represents.invalidateSlots (h : Represents limit cache lru) {first last : Nat} {key : CleanPageFolioKey}
    (hs : key.startPageIdx ≤ last) : Represents limit (cache.invalidateSlots first last key)
      (lru.drop fun page => page.folioKey = key ∧ first ≤ page.pageIdx ∧ page.pageIdx ≤ last) := by
  have hgone : (fun page : CleanPageKey => decide (page.folioKey = key ∧ first ≤ page.pageIdx ∧ page.pageIdx ≤ last)) =
      fun page => decide (page.folioKey = key ∧ first - key.startPageIdx ≤ page.folioSlot ∧
        page.folioSlot ≤ min (last - key.startPageIdx) (CLEAN_PAGE_FOLIO_PAGES - 1)) := by
    funext page
    rw [decide_eq_decide]
    refine and_congr_right fun hk => ?_
    subst hk
    exact (folioSlot_iff hs).symm
  rw [CleanPageCache.invalidateSlots, hgone]
  cases hl : cache.folios.lookup key
  case none =>
    apply h.drop h.linked rfl (fun _ entry he => ⟨entry, he, rfl⟩) h.nonempty h.count (Nat.le_refl _)
    intro page
    split
    case isTrue hk => simp [CleanPageCache.frame, (of_decide_eq_true hk).left, hl]
    case isFalse => rfl
  case some folio =>
    exact h.emptySlots hl _ rfl (CachedCleanFolio.pageCount_split fun slot => first - key.startPageIdx ≤ slot ∧
      slot ≤ min (last - key.startPageIdx) (CLEAN_PAGE_FOLIO_PAGES - 1))

-- Folio after folio.
theorem Represents.foldl (h : Represents limit cache lru)
    {f : CleanPageCache φ → CleanPageFolioKey → CleanPageCache φ} (gone : CleanPageFolioKey → CleanPageKey → Bool)
    {victims : List CleanPageFolioKey} {p : CleanPageKey → Bool}
    (hf : ∀ key ∈ victims, ∀ {cache lru}, Represents limit cache lru → Represents limit (f cache key) (lru.drop (gone key)))
    (hp : ∀ page, page.folioKey ∈ cache.folios.entries → (p page ↔ ∃ key ∈ victims, gone key page)) :
    Represents limit (victims.foldl f cache) (lru.drop p) := by
  have hfold {cache lru} (h : Represents limit cache lru) : Represents limit (victims.foldl f cache)
      (victims.foldl (fun lru key => lru.drop (gone key)) lru) := by
    clear hp
    induction victims generalizing cache lru
    case nil => exact h
    case cons key victims hi =>
      exact hi (fun key hm => hf key (List.mem_cons_of_mem _ hm)) (hf key List.mem_cons_self h)
  have hsame : Represents limit cache (lru.drop fun _ => false) :=
    h.drop h.linked rfl (fun _ entry he => ⟨entry, he, rfl⟩) h.nonempty h.count (Nat.le_refl _) fun _ => rfl
  have hall := hfold hsame
  rw [FolioLru.foldl_drop] at hall
  rw [FolioLru.drop_congr]
  · exact hall
  · intro page hsome
    rw [← h.frame, CleanPageCache.frame] at hsome
    have hm : page.folioKey ∈ cache.folios.entries := by
      cases hl : cache.folios.lookup page.folioKey
      case none => simp [hl] at hsome
      case some folio => exact AgedMap.mem_iff.mpr ⟨folio, hl⟩
    rw [Bool.eq_iff_iff, hp page hm, Bool.or_false, List.any_eq_true]

theorem Represents.invalidateIno (h : Represents limit cache lru) (ino : Nat) :
    Represents limit (cache.invalidateIno ino) (lru.drop fun page => page.ino = ino) := by
  apply h.foldl fun key page => page.folioKey = key
  case hf => exact fun key _ _ _ h => h.invalidateFolio key
  case hp =>
    intro page hm
    simp only [decide_eq_true_eq, Finset.mem_sort, Finset.mem_filter, Finmap.mem_keys]
    constructor
    case mp => exact fun he => ⟨page.folioKey, ⟨hm, he⟩, rfl⟩
    case mpr =>
      intro ⟨key, ⟨_, he⟩, hk⟩
      subst hk
      exact he

-- The pages that a range meets.
theorem pageIdx_iff {start «end» i : Nat} (h : start < «end») :
    (start / pageSize ≤ i ∧ i ≤ («end» - 1) / pageSize) ↔ (i * pageSize < «end» ∧ start < (i + 1) * pageSize) := by
  rw [← Nat.lt_succ_iff, Nat.div_lt_iff_lt_mul pageSize_pos, Nat.le_div_iff_mul_le pageSize_pos, Nat.succ_eq_add_one]
  omega

theorem Represents.invalidateRange (h : Represents limit cache lru) {ino start «end» : Nat} (he : «end» ≤ Usize.max) :
    Represents limit (cache.invalidateRange ino start «end») (lru.drop fun key => key.ino = ino ∧
      key.pageIdx * pageSize < «end» ∧ start < (key.pageIdx + 1) * pageSize ∧ start < «end») := by
  rw [CleanPageCache.invalidateRange]
  split
  case isTrue hs =>
    apply h.drop h.linked rfl (fun _ entry he => ⟨entry, he, rfl⟩) h.nonempty h.count (Nat.le_refl _)
    intro page
    rw [if_neg]
    simp only [decide_eq_true_eq]
    omega
  case isFalse hs =>
    apply h.foldl fun key page => page.folioKey = key ∧ start / pageSize ≤ page.pageIdx ∧
      page.pageIdx ≤ («end» - 1) / pageSize
    case hf =>
      intro key hm _ _ h
      exact h.invalidateSlots (Finset.mem_filter.mp ((Finset.mem_sort _).mp hm)).right.right.left
    case hp =>
      intro page hm
      have h16 : CLEAN_PAGE_FOLIO_PAGES = 16 := rfl
      have hstart : page.folioKey.startPageIdx = page.pageIdx - page.pageIdx % 16 := rfl
      simp only [decide_eq_true_eq, Finset.mem_sort, Finset.mem_filter, Finmap.mem_keys]
      constructor
      case mp =>
        intro ⟨hino, hlt, hgt, _⟩
        have ⟨hfirst, hlast⟩ := (pageIdx_iff (by omega)).mpr ⟨hlt, hgt⟩
        have hmax : start / pageSize < Usize.max := Nat.lt_of_le_of_lt (Nat.div_le_self _ _) (by omega)
        have hend : page.pageIdx < page.folioKey.startPageIdx + CLEAN_PAGE_FOLIO_PAGES := by omega
        exact ⟨page.folioKey, ⟨hm, hino, by omega, Nat.lt_min.mpr ⟨by omega, hmax⟩⟩, rfl, hfirst, hlast⟩
      case mpr =>
        intro ⟨key, ⟨_, hino, _⟩, hk, hfirst, hlast⟩
        have ⟨hlt, hgt⟩ := (pageIdx_iff (by omega)).mp ⟨hfirst, hlast⟩
        subst hk
        exact ⟨hino, hlt, hgt, by omega⟩

theorem Represents.evictOne_lt (h : Represents limit cache lru) (hp : 0 < cache.pageCount) :
    cache.evictOne.pageCount < cache.pageCount := by
  have ho := h.recency.oldest h.linked
  rw [CleanPageCache.evictOne]
  cases hold : cache.folios.oldest
  case none =>
    rw [hold] at ho
    have hzero := h.count_eq
    rw [FolioLru.count, List.head?_eq_none_iff.mp ho.symm] at hzero
    simp only [List.map_nil, List.sum_nil] at hzero
    omega
  case some aged =>
    rw [hold] at ho
    have hk := List.mem_of_head? ho.symm
    have ⟨folio, hl⟩ := AgedMap.mem_iff.mp ((h.recency.mem _).mp hk)
    have hpos := CachedCleanFolio.pageCount_pos (h.nonempty _ folio hl)
    simp only [hl]
    omega

-- A page that is put into a folio.
theorem Represents.put (h : Represents limit cache lru) (key : CleanPageKey) (frame : φ)
    (hle : (cache.frame key).isNone → cache.pageCount < limit) {folio : CachedCleanFolio φ}
    (hf : folio = (cache.folios.lookup key.folioKey).getD .new) :
    Represents limit
      { cache.use key.folioKey (Function.update folio key.folioSlot (some frame)) with
        pageCount := if (folio key.folioSlot).isNone then cache.pageCount + 1 else cache.pageCount }
      ({ lru with pages := Function.update lru.pages key (some frame) }.use key.folioKey) := by
  have hslot : folio key.folioSlot = cache.frame key := by
    rw [hf, CleanPageCache.frame]
    cases cache.folios.lookup key.folioKey <;> rfl
  refine ⟨⟨h.linked.set _ _ _, ?count, ?le_limit, ?nonempty⟩, h.before.set, ?aligned, h.recency.set h.before _ _, ?frame⟩
  case count =>
    have hw := cache.folios.weight_set CachedCleanFolio.pageCount key.folioKey
      (Function.update folio key.folioSlot (some frame)) cache.nextAge
    rw [CachedCleanFolio.pageCount_update] at hw
    have hold : (cache.folios.lookup key.folioKey).elim 0 CachedCleanFolio.pageCount = folio.pageCount := by
      rw [hf]
      cases cache.folios.lookup key.folioKey
      case none => simp [CachedCleanFolio.pageCount_eq, CachedCleanFolio.new]
      case some => rfl
    have hc := h.count
    rw [hold] at hw
    dsimp only [CleanPageCache.use]
    split
    case isTrue hn =>
      rw [if_pos hn] at hw
      omega
    case isFalse hn =>
      rw [if_neg hn] at hw
      omega
  case le_limit =>
    rw [hslot]
    dsimp only
    split
    case isTrue hn => exact hle hn
    case isFalse => exact h.le_limit
  case nonempty =>
    intro key' folio' hl
    by_cases hk : key' = key.folioKey
    case pos =>
      subst hk
      simp only [CleanPageCache.use, AgedMap.lookup_set, Option.some.injEq] at hl
      intro he
      have := CachedCleanFolio.isEmpty_iff.mp he key.folioSlot
      simp [← hl] at this
    case neg =>
      rw [CleanPageCache.use, AgedMap.lookup_set_of_ne hk] at hl
      exact h.nonempty key' folio' hl
  case aligned =>
    intro key' hk
    obtain hk | hk := Finmap.mem_insert.mp hk
    case inl =>
      subst hk
      simp only [CleanPageKey.folioKey, CLEAN_PAGE_FOLIO_PAGES]
      omega
    case inr => exact h.aligned key' hk
  case frame =>
    intro page
    have hu := cache.frame_use key.folioKey (Function.update folio key.folioSlot (some frame)) page
    refine hu.trans ?_
    by_cases hpage : page = key
    case pos => simp [hpage, FolioLru.use]
    case neg =>
      simp only [FolioLru.use, Function.update_of_ne hpage, ← h.frame]
      split
      case isTrue hk =>
        have hne : page.folioSlot ≠ key.folioSlot := fun hs => hpage (CleanPageKey.eq_of_folioKey hk hs)
        rw [Function.update_of_ne hne, hf, CleanPageCache.frame, hk]
        cases cache.folios.lookup key.folioKey <;> rfl
      case isFalse => rfl

theorem Represents.insert (h : Represents limit cache lru) (hlimit : 0 < limit) (key : CleanPageKey) (frame : φ) :
    Represents limit (cache.insert limit key frame) (lru.insert limit key frame) := by
  rw [CleanPageCache.insert, FolioLru.insert, h.count_eq, h.frame]
  split
  case isTrue he =>
    apply h.evictOne.put key frame _ rfl
    intro _
    have := h.evictOne_lt (by omega)
    have := h.le_limit
    omega
  case isFalse he =>
    apply h.put key frame _ rfl
    intro hn
    rw [h.frame] at hn
    simp only [hn, true_and] at he
    omega

theorem Represents.step (h : Represents limit cache lru) (hl : 0 < limit) (act : CleanPageCacheAct φ) :
    ∃ result cache' lru', cache.step limit act = some (result, cache') ∧ lru.step limit act = some (result, lru') ∧
      Represents limit cache' lru' := by
  cases act
  case get key =>
    have ⟨hf, hr⟩ := get_spec h key
    exact ⟨.frame (lru.pages key), _, _, by rw [← hf]; rfl, rfl, hr⟩
  case getRun ino start maxPages =>
    have ⟨hf, hr⟩ := getRun_spec h ino start maxPages
    exact ⟨.frames _, _, _, by rw [← hf]; rfl, rfl, hr⟩
  case uncachedPrefixLen ino start maxPages =>
    exact ⟨.len _, _, _, by rw [← uncachedPrefixLen_spec h]; rfl, rfl, h⟩
  case insert key frame => exact ⟨_, _, _, rfl, rfl, h.insert hl key frame⟩
  case evictOne => exact ⟨_, _, _, rfl, rfl, h.evictOne⟩
  case invalidateIno ino => exact ⟨_, _, _, rfl, rfl, h.invalidateIno ino⟩
  case invalidateRange ino start «end» he => exact ⟨_, _, _, rfl, rfl, h.invalidateRange he⟩

theorem Represents.run (h : Represents limit cache lru) (hl : 0 < limit) (acts : List (CleanPageCacheAct φ)) :
    ∃ results cache' lru', Simulation.run (CleanPageCache.step limit) cache acts = some (results, cache') ∧
      Simulation.run (FolioLru.step limit) lru acts = some (results, lru') ∧ Represents limit cache' lru' := by
  induction acts generalizing cache lru
  case nil => exact ⟨_, _, _, rfl, rfl, h⟩
  case cons act acts hi =>
    have ⟨result, cache₁, lru₁, hc, hlru, h₁⟩ := h.step hl act
    have ⟨results, cache', lru', hcs, hlrus, h'⟩ := hi h₁
    exact ⟨_, _, _, Simulation.run_cons.mpr ⟨_, _, _, hc, hcs, rfl⟩,
      Simulation.run_cons.mpr ⟨_, _, _, hlru, hlrus, rfl⟩, h'⟩

theorem cleanPageCacheLimit_pos (totalFrames : Nat) : 0 < cleanPageCacheLimit totalFrames := by
  simp only [cleanPageCacheLimit, CLEAN_PAGE_CACHE_MIN_PAGES, CLEAN_PAGE_CACHE_MAX_PAGES]
  omega

-- Whatever is called, the cache answers like pages whose folios are evicted in the order of their last use.
theorem refines_folioLru (totalFrames : Nat) (acts : List (CleanPageCacheAct φ)) :
    ∃ results cache lru,
      Simulation.run (CleanPageCache.step (cleanPageCacheLimit totalFrames)) .new acts = some (results, cache) ∧
      Simulation.run (FolioLru.step (cleanPageCacheLimit totalFrames)) .new acts = some (results, lru) ∧
      cache.WellFormed (cleanPageCacheLimit totalFrames) ∧ (∀ key, cache.frame key = lru.pages key) ∧
      cache.folios.Recency lru.recency := by
  have ⟨results, cache, lru, hc, hl, h⟩ := Represents.new.run (cleanPageCacheLimit_pos totalFrames) acts
  exact ⟨results, cache, lru, hc, hl, h.toWellFormed, h.frame, h.recency⟩

end CleanPageCache

end WllOs.Fs
