import Mathlib

-- Finite maps some of whose keys are changed, one after the other.
namespace Rekey

variable {α β : Type*}

abbrev Map (α : Type*) (β : Type*) := AList fun _ : α => β

-- A change of a key: the old one, the new one, and the value.
abbrev Update (α : Type*) (β : Type*) := α × α × β

def updates (target : α → Option α) (map : Map α β) : List (Update α β) :=
  map.entries.filterMap fun entry => (target entry.fst).map fun key => (entry.fst, key, entry.snd)

variable {target : α → Option α} {map : Map α β} {us : List (Update α β)} {key new : α}

theorem target_of_mem_updates {u : Update α β} (h : u ∈ updates target map) : target u.fst = some u.snd.fst := by
  have ⟨entry, _, he⟩ := List.mem_filterMap.mp h
  have ⟨new, ht, he⟩ := Option.map_eq_some_iff.mp he
  subst he
  exact ht

theorem keys_updates (target : α → Option α) (map : Map α β) :
    (updates target map).map Prod.fst = map.keys.filter fun key => (target key).isSome := by
  simp only [updates, AList.keys, List.keys]
  induction map.entries
  case nil => rfl
  case cons entry entries hi =>
    cases ht : target entry.fst <;> simp [ht, hi]

variable [DecidableEq α]

def apply (map : Map α β) (updates : List (Update α β)) : Map α β :=
  updates.foldl (fun map update => (map.erase update.fst).insert update.snd.fst update.snd.snd) map

def rekey (target : α → Option α) (map : Map α β) : Map α β :=
  apply map (updates target map)

-- No key is a target of two others, and targets stay where they are.
structure Separate (target : α → Option α) : Prop where
  inj : ∀ {key key' new}, target key = some new → target key' = some new → key = key'
  stays : ∀ {key new}, target key = some new → target new = none

theorem lookup_apply_of_source (h : Separate target) (ht : target key = some new)
    (hu : ∀ u ∈ us, target u.fst = some u.snd.fst) (hn : (us.map Prod.fst).Nodup) :
    (apply map us).lookup new = ((us.find? (·.fst = key)).map (·.snd.snd)).or (map.lookup new) := by
  induction us generalizing map
  case nil => rfl
  case cons u us hi =>
    have ⟨hu, hus⟩ := List.forall_mem_cons.mp hu
    rw [List.map_cons, List.nodup_cons] at hn
    rw [apply, List.foldl_cons, ← apply, hi hus hn.right]
    by_cases hk : u.fst = key
    case pos =>
      have hnew : u.snd.fst = new := Option.some.inj (hu.symm.trans (hk ▸ ht))
      have hnone : us.find? (·.fst = key) = none := by
        refine List.find?_eq_none.mpr fun u' hm he => hn.left ?_
        rw [hk, ← of_decide_eq_true he]
        exact List.mem_map_of_mem hm
      simp [hnone, hk, hnew]
    case neg =>
      have hnew : new ≠ u.snd.fst := fun he => hk (h.inj hu (he ▸ ht))
      have hold : new ≠ u.fst := fun he => by
        have := h.stays ht
        rw [he, hu] at this
        cases this
      simp [hk, AList.lookup_insert_ne hnew, AList.lookup_erase_ne hold]

theorem lookup_apply_of_moved (h : Separate target) (ht : target key = some new)
    (hu : ∀ u ∈ us, target u.fst = some u.snd.fst) :
    (apply map us).lookup key = if key ∈ us.map Prod.fst then none else map.lookup key := by
  induction us generalizing map
  case nil => rfl
  case cons u us hi =>
    have ⟨hu, hus⟩ := List.forall_mem_cons.mp hu
    rw [apply, List.foldl_cons, ← apply, hi hus]
    have hnew : key ≠ u.snd.fst := fun he => by
      have := h.stays hu
      rw [← he, ht] at this
      cases this
    by_cases hk : key = u.fst
    case pos =>
      have he : ((map.erase u.fst).insert u.snd.fst u.snd.snd).lookup key = none := by
        rw [AList.lookup_insert_ne hnew, hk, AList.lookup_erase]
      rw [he, ite_self, if_pos]
      rw [hk, List.map_cons]
      exact List.mem_cons_self
    case neg =>
      rw [AList.lookup_insert_ne hnew, AList.lookup_erase_ne hk, List.map_cons]
      simp only [List.mem_cons, hk, false_or]

theorem lookup_apply_of_ne (ht : target key = none) (hs : ∀ source, target source ≠ some key)
    (hu : ∀ u ∈ us, target u.fst = some u.snd.fst) : (apply map us).lookup key = map.lookup key := by
  induction us generalizing map
  case nil => rfl
  case cons u us hi =>
    have ⟨hu, hus⟩ := List.forall_mem_cons.mp hu
    rw [apply, List.foldl_cons, ← apply, hi hus]
    have hnew : key ≠ u.snd.fst := fun he => hs u.fst (he ▸ hu)
    have hold : key ≠ u.fst := fun he => by
      rw [he, hu] at ht
      cases ht
    rw [AList.lookup_insert_ne hnew, AList.lookup_erase_ne hold]

theorem find_updates (ht : target key = some new) :
    ((updates target map).find? (·.fst = key)).map (·.snd.snd) = map.lookup key := by
  simp only [updates, AList.lookup]
  induction map.entries
  case nil => rfl
  case cons entry entries hi =>
    by_cases hk : entry.fst = key
    case pos =>
      have ⟨k, v⟩ := entry
      subst hk
      simp [ht]
    case neg =>
      have ⟨k, v⟩ := entry
      rw [List.dlookup_cons_ne _ _ (Ne.symm hk), ← hi]
      cases hn : target k <;> simp [hn, hk]

-- What is found under a key afterwards: what its source had, nothing if it is moved itself, or what was there.
theorem lookup_rekey_of_source (h : Separate target) (ht : target key = some new) :
    (rekey target map).lookup new = (map.lookup key).or (map.lookup new) := by
  have hn : ((updates target map).map Prod.fst).Nodup := by
    rw [keys_updates]
    exact map.keys_nodup.filter _
  rw [rekey, lookup_apply_of_source h ht (fun _ => target_of_mem_updates) hn, find_updates ht]

theorem lookup_rekey_of_moved (h : Separate target) (ht : target key = some new) :
    (rekey target map).lookup key = none := by
  rw [rekey, lookup_apply_of_moved h ht fun _ => target_of_mem_updates, keys_updates]
  split
  case isTrue => rfl
  case isFalse hm => simpa [ht, AList.lookup_eq_none, AList.mem_keys] using hm

theorem lookup_rekey_of_ne (ht : target key = none) (hs : ∀ source, target source ≠ some key) :
    (rekey target map).lookup key = map.lookup key :=
  lookup_apply_of_ne ht hs fun _ => target_of_mem_updates

end Rekey
