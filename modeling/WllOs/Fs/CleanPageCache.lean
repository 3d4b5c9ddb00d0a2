import WllOs.Library.AgedMap
import WllOs.Mm.Basic

namespace WllOs.Fs

def CLEAN_PAGE_CACHE_MIN_PAGES : Nat := 2048
def CLEAN_PAGE_CACHE_MAX_PAGES : Nat := 65536
def CLEAN_PAGE_CACHE_MEMORY_DIVISOR : Nat := 32
def CLEAN_PAGE_FOLIO_PAGES : Nat := 16

def cleanPageCacheLimit (totalFrames : Nat) : Nat :=
  min (max (totalFrames / CLEAN_PAGE_CACHE_MEMORY_DIVISOR) CLEAN_PAGE_CACHE_MIN_PAGES) CLEAN_PAGE_CACHE_MAX_PAGES

structure CleanPageFolioKey where
  ino : Nat
  startPageIdx : Nat

-- Keys are ordered by their fields, one after the other.
instance : LinearOrder CleanPageFolioKey :=
  .lift' (fun key => toLex (key.ino, key.startPageIdx)) fun key key' h => by
    cases key
    cases key'
    simpa using h

structure CleanPageKey where
  ino : Nat
  pageIdx : Nat
  deriving DecidableEq

namespace CleanPageKey

variable (key : CleanPageKey)

def folioKey : CleanPageFolioKey where
  ino := key.ino
  startPageIdx := key.pageIdx - key.pageIdx % CLEAN_PAGE_FOLIO_PAGES

def folioSlot : Fin CLEAN_PAGE_FOLIO_PAGES :=
  ⟨key.pageIdx % CLEAN_PAGE_FOLIO_PAGES, Nat.mod_lt _ (by decide)⟩

end CleanPageKey

-- The frames of a folio.
abbrev CachedCleanFolio (φ : Type*) :=
  Fin CLEAN_PAGE_FOLIO_PAGES → Option φ

namespace CachedCleanFolio

variable {φ : Type*} (folio : CachedCleanFolio φ)

def new : CachedCleanFolio φ :=
  fun _ => none

def frames : List (Option φ) :=
  List.ofFn folio

def pageCount : Nat :=
  folio.frames.countP Option.isSome

def isEmpty : Bool :=
  folio.frames.all Option.isNone

end CachedCleanFolio

-- Ages are 64 bits wide and do not wrap here.
structure CleanPageCache (φ : Type*) where
  folios : AgedMap CleanPageFolioKey (CachedCleanFolio φ)
  nextAge : Nat
  pageCount : Nat

namespace CleanPageCache

variable {φ : Type*}

def new : CleanPageCache φ where
  folios := .empty
  nextAge := 1
  pageCount := 0

variable (cache : CleanPageCache φ)

def frame (key : CleanPageKey) : Option φ :=
  (cache.folios.lookup key.folioKey).bind fun folio => folio key.folioSlot

-- The folio gets a new age.
def use (key : CleanPageFolioKey) (folio : CachedCleanFolio φ) : CleanPageCache φ :=
  { cache with folios := cache.folios.set key folio cache.nextAge, nextAge := cache.nextAge + 1 }

def get (key : CleanPageKey) : Option φ × CleanPageCache φ :=
  match cache.folios.lookup key.folioKey with
  | none       => (none, cache)
  | some folio =>
    match folio key.folioSlot with
    | none       => (none, cache)
    | some frame => (some frame, cache.use key.folioKey folio)

def uncachedPrefixLen (ino startPageIdx maxPages : Nat) : Nat :=
  if maxPages = 0 ∨ startPageIdx > Usize.max then 0
  else if (cache.frame ⟨ino, startPageIdx⟩).isSome then 0
  else uncachedPrefixLen ino (startPageIdx + 1) (maxPages - 1) + 1
termination_by maxPages

-- The frames of a folio from a slot on, up to the first that is missing.
def folioRun (folio : CachedCleanFolio φ) (slot remaining : Nat) : List φ :=
  (((folio.frames.drop slot).take remaining).takeWhile Option.isSome).reduceOption

theorem folioRun_pos (folio : CachedCleanFolio φ) (slot : Fin CLEAN_PAGE_FOLIO_PAGES) {remaining : Nat}
    (h : (folio slot).isSome) (hr : remaining ≠ 0) : 0 < (folioRun folio slot remaining).length := by
  have ⟨frame, hf⟩ := Option.isSome_iff_exists.mp h
  have ⟨rest, hd⟩ : ∃ rest, folio.frames.drop slot = some frame :: rest :=
    ⟨_, by rw [CachedCleanFolio.frames, List.drop_eq_getElem_cons (by simp), List.getElem_ofFn, Fin.eta, hf]⟩
  obtain ⟨remaining, rfl⟩ := Nat.exists_eq_succ_of_ne_zero hr
  simp [folioRun, hd, List.reduceOption_cons_of_some]

def getRun (cache : CleanPageCache φ) (ino startPageIdx maxPages : Nat) : List φ × CleanPageCache φ :=
  if maxPages = 0 ∨ startPageIdx > Usize.max then ([], cache)
  else
    let key : CleanPageKey := ⟨ino, startPageIdx⟩
    match cache.folios.lookup key.folioKey with
    | none       => ([], cache)
    | some folio =>
      if _hf : (folio key.folioSlot).isSome then
        let frames := folioRun folio key.folioSlot maxPages
        let (rest, cache) := (cache.use key.folioKey folio).getRun ino (startPageIdx + frames.length)
          (maxPages - frames.length)
        (frames ++ rest, cache)
      else ([], cache)
termination_by maxPages
decreasing_by
  have hr : maxPages ≠ 0 := by omega
  exact Nat.sub_lt (Nat.pos_of_ne_zero hr) (folioRun_pos folio _ _hf hr)

def evictOne : CleanPageCache φ :=
  match cache.folios.oldest with
  | none      => cache
  | some aged =>
    match cache.folios.lookup (ofLex aged).snd with
    | none       => { cache with folios := cache.folios.removeOldest }
    | some folio =>
      { cache with folios := cache.folios.removeOldest, pageCount := cache.pageCount - folio.pageCount }

-- `limit` is `clean_page_cache_limit`.
def insert (limit : Nat) (key : CleanPageKey) (frame : φ) : CleanPageCache φ :=
  let cache := if (cache.frame key).isNone ∧ cache.pageCount ≥ limit then cache.evictOne else cache
  let folio := (cache.folios.lookup key.folioKey).getD .new
  let inserted := (folio key.folioSlot).isNone
  let cache := cache.use key.folioKey (Function.update folio key.folioSlot (some frame))
  { cache with pageCount := if inserted then cache.pageCount + 1 else cache.pageCount }

def invalidateFolio (key : CleanPageFolioKey) : CleanPageCache φ :=
  match cache.folios.lookup key with
  | none       => cache
  | some folio => { cache with folios := cache.folios.remove key, pageCount := cache.pageCount - folio.pageCount }

def invalidateIno (ino : Nat) : CleanPageCache φ :=
  ((cache.folios.entries.keys.filter fun key => key.ino = ino).sort (· ≤ ·)).foldl invalidateFolio cache

-- The part of `invalidate_range` for one folio.
def invalidateSlots (first last : Nat) (cache : CleanPageCache φ) (key : CleanPageFolioKey) : CleanPageCache φ :=
  match cache.folios.lookup key with
  | none       => cache
  | some folio =>
    let firstSlot := first - key.startPageIdx
    let lastSlot := min (last - key.startPageIdx) (CLEAN_PAGE_FOLIO_PAGES - 1)
    let taken : CachedCleanFolio φ := fun slot => if firstSlot ≤ slot ∧ slot ≤ lastSlot then folio slot else none
    let kept : CachedCleanFolio φ := fun slot => if firstSlot ≤ slot ∧ slot ≤ lastSlot then none else folio slot
    { cache with
      folios := if kept.isEmpty then cache.folios.remove key else cache.folios.update key kept
      pageCount := cache.pageCount - taken.pageCount }

def invalidateRange (ino start «end» : Nat) : CleanPageCache φ :=
  if start ≥ «end» then cache
  else
    let first := start / pageSize
    let last := («end» - 1) / pageSize
    let victims := cache.folios.entries.keys.filter fun key =>
      key.ino = ino ∧ key.startPageIdx ≤ last ∧ Usize.saturatingAdd key.startPageIdx CLEAN_PAGE_FOLIO_PAGES > first
    (victims.sort (· ≤ ·)).foldl (invalidateSlots first last) cache

-- The ages are those of the folios, the counter is right and within the limit, and no folio is empty.
structure WellFormed (limit : Nat) : Prop where
  linked : cache.folios.Linked
  count : cache.pageCount = cache.folios.weight CachedCleanFolio.pageCount
  le_limit : cache.pageCount ≤ limit
  nonempty : ∀ key folio, cache.folios.lookup key = some folio → ¬folio.isEmpty

end CleanPageCache

-- The end of a range is 64 bits wide.
inductive CleanPageCacheAct (φ : Type*)
  | get (key : CleanPageKey)
  | getRun (ino startPageIdx maxPages : Nat)
  | uncachedPrefixLen (ino startPageIdx maxPages : Nat)
  | insert (key : CleanPageKey) (frame : φ)
  | evictOne
  | invalidateIno (ino : Nat)
  | invalidateRange (ino start «end» : Nat) (h : «end» ≤ Usize.max)

-- What a call returns.
inductive CleanPageCacheResult (φ : Type*)
  | frame (frame : Option φ)
  | frames (frames : List φ)
  | len (len : Nat)
  | done

def CleanPageCache.step {φ : Type*} (limit : Nat) (cache : CleanPageCache φ) :
    CleanPageCacheAct φ → Option (CleanPageCacheResult φ × CleanPageCache φ)
  | .get key                              =>
    let (frame, cache) := cache.get key
    some (.frame frame, cache)
  | .getRun ino start maxPages            =>
    let (frames, cache) := cache.getRun ino start maxPages
    some (.frames frames, cache)
  | .uncachedPrefixLen ino start maxPages => some (.len (cache.uncachedPrefixLen ino start maxPages), cache)
  | .insert key frame                     => some (.done, cache.insert limit key frame)
  | .evictOne                             => some (.done, cache.evictOne)
  | .invalidateIno ino                    => some (.done, cache.invalidateIno ino)
  | .invalidateRange ino start «end» _    => some (.done, cache.invalidateRange ino start «end»)

-- What the cache is for: pages with their frames, and the folios in the order of their last use.
structure FolioLru (φ : Type*) where
  pages : CleanPageKey → Option φ
  recency : List CleanPageFolioKey

namespace FolioLru

variable {φ : Type*} (lru : FolioLru φ)

def new : FolioLru φ where
  pages _ := none
  recency := []

def folioPages (key : CleanPageFolioKey) : List (Option φ) :=
  (List.range CLEAN_PAGE_FOLIO_PAGES).map fun slot => lru.pages ⟨key.ino, key.startPageIdx + slot⟩

def count : Nat :=
  (lru.recency.map fun key => (lru.folioPages key).countP Option.isSome).sum

-- A folio that is used is the last one to be evicted.
def use (key : CleanPageFolioKey) : FolioLru φ :=
  { lru with recency := lru.recency.erase key ++ [key] }

-- Some pages go, and the folios that have no pages left.
def drop (gone : CleanPageKey → Bool) : FolioLru φ :=
  let pages key := if gone key then none else lru.pages key
  { pages, recency := lru.recency.filter fun key => (folioPages ⟨pages, []⟩ key).any Option.isSome }

def evict : FolioLru φ :=
  match lru.recency.head? with
  | none     => lru
  | some key => lru.drop fun page => page.folioKey = key

def insert (limit : Nat) (key : CleanPageKey) (frame : φ) : FolioLru φ :=
  let lru := if (lru.pages key).isNone ∧ lru.count ≥ limit then lru.evict else lru
  { lru with pages := Function.update lru.pages key (some frame) }.use key.folioKey

-- The pages from a page on, of which there are no more than indices of 64 bits.
def pagesFrom (ino start maxPages : Nat) : List CleanPageKey :=
  ((List.range maxPages).map fun i => ⟨ino, start + i⟩).filter fun key => key.pageIdx ≤ Usize.max

def run (ino start maxPages : Nat) : List CleanPageKey :=
  (pagesFrom ino start maxPages).takeWhile fun key => (lru.pages key).isSome

def uncachedRun (ino start maxPages : Nat) : List CleanPageKey :=
  (pagesFrom ino start maxPages).takeWhile fun key => (lru.pages key).isNone

def step (limit : Nat) (lru : FolioLru φ) : CleanPageCacheAct φ → Option (CleanPageCacheResult φ × FolioLru φ)
  | .get key                              =>
    some (.frame (lru.pages key), if (lru.pages key).isSome then lru.use key.folioKey else lru)
  | .getRun ino start maxPages            =>
    let run := lru.run ino start maxPages
    some (.frames (run.map lru.pages).reduceOption, (run.map CleanPageKey.folioKey).foldl use lru)
  | .uncachedPrefixLen ino start maxPages => some (.len (lru.uncachedRun ino start maxPages).length, lru)
  | .insert key frame                     => some (.done, lru.insert limit key frame)
  | .evictOne                             => some (.done, lru.evict)
  | .invalidateIno ino                    => some (.done, lru.drop fun key => key.ino = ino)
  | .invalidateRange ino start «end» _    =>
    some (.done, lru.drop fun key => key.ino = ino ∧ key.pageIdx * pageSize < «end» ∧
      start < (key.pageIdx + 1) * pageSize ∧ start < «end»)

end FolioLru

end WllOs.Fs
