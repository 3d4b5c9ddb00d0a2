import Mathlib

-- Entries with the age of their last use.
structure AgedEntry (ν : Type*) where
  value : ν
  lastUsed : Nat

-- A map that keeps the ages of its entries in a set of its own, whose least element is the entry that has not been used
-- for the longest time.
structure AgedMap (κ ν : Type*) where
  entries : Finmap fun _ : κ => AgedEntry ν
  ages : Finset (Nat ×ₗ κ)

namespace AgedMap

variable {κ ν : Type*} [LinearOrder κ] (map : AgedMap κ ν)

def empty : AgedMap κ ν where
  entries := ∅
  ages := ∅

def lookup (key : κ) : Option ν :=
  (map.entries.lookup key).map AgedEntry.value

def size : Nat :=
  map.entries.keys.card

-- The ages without that of a key.
def agesWithout (key : κ) : Finset (Nat ×ₗ κ) :=
  match map.entries.lookup key with
  | some entry => map.ages.erase (toLex (entry.lastUsed, key))
  | none       => map.ages

def set (key : κ) (value : ν) (age : Nat) : AgedMap κ ν where
  entries := map.entries.insert key ⟨value, age⟩
  ages := insert (toLex (age, key)) (map.agesWithout key)

def remove (key : κ) : AgedMap κ ν where
  entries := map.entries.erase key
  ages := map.agesWithout key

-- An entry whose value changes without a use.
def update (key : κ) (value : ν) : AgedMap κ ν :=
  match map.entries.lookup key with
  | some entry => { map with entries := map.entries.insert key { entry with value } }
  | none       => map

def oldest : Option (Nat ×ₗ κ) :=
  if h : map.ages.Nonempty then some (map.ages.min' h) else none

def removeOldest : AgedMap κ ν :=
  match map.oldest with
  | none      => map
  | some aged => { entries := map.entries.erase (ofLex aged).snd, ages := map.ages.erase aged }

-- The ages are those of the entries.
def Linked : Prop :=
  ∀ age key, toLex (age, key) ∈ map.ages ↔ ∃ value, map.entries.lookup key = some ⟨value, age⟩

-- What all values weigh.
def weight (f : ν → Nat) : Nat :=
  ∑ key ∈ map.entries.keys, (map.lookup key).elim 0 f

-- No entry has been used at the given age or later.
def Before (age : Nat) : Prop :=
  ∀ key entry, map.entries.lookup key = some entry → entry.lastUsed < age

-- The keys from the one that has not been used for the longest time to the one that was used last.
structure Recency (keys : List κ) : Prop where
  mem : ∀ key, key ∈ keys ↔ key ∈ map.entries
  sorted : keys.Pairwise fun key key' => ∀ entry entry', map.entries.lookup key = some entry →
    map.entries.lookup key' = some entry' → entry.lastUsed < entry'.lastUsed

variable {map : AgedMap κ ν} {key key' : κ} {value : ν} {age : Nat} {keys : List κ}

@[simp]
theorem lookup_set : (map.set key value age).lookup key = some value := by
  simp [lookup, set]

theorem lookup_set_of_ne (h : key' ≠ key) : (map.set key value age).lookup key' = map.lookup key' := by
  simp [lookup, set, Finmap.lookup_insert_of_ne _ h]

@[simp]
theorem lookup_remove : (map.remove key).lookup key = none := by
  simp [lookup, remove]

theorem lookup_remove_of_ne (h : key' ≠ key) : (map.remove key).lookup key' = map.lookup key' := by
  simp [lookup, remove, Finmap.lookup_erase_ne h]

theorem lookup_update (h : (map.lookup key).isSome) : (map.update key value).lookup key = some value := by
  obtain ⟨_, hv⟩ := Option.isSome_iff_exists.mp h
  have ⟨entry, he, _⟩ := Option.map_eq_some_iff.mp hv
  simp [lookup, update, he]

theorem lookup_update_of_ne (h : key' ≠ key) : (map.update key value).lookup key' = map.lookup key' := by
  simp only [lookup, update]
  cases map.entries.lookup key
  case none => rfl
  case some => rw [Finmap.lookup_insert_of_ne _ h]

theorem mem_iff : key ∈ map.entries ↔ ∃ value, map.lookup key = some value := by
  rw [Finmap.mem_iff]
  constructor
  case mp => exact fun ⟨entry, he⟩ => ⟨entry.value, by simp [lookup, he]⟩
  case mpr =>
    intro ⟨value, hv⟩
    have ⟨entry, he, _⟩ := Option.map_eq_some_iff.mp hv
    exact ⟨entry, he⟩

theorem Linked.empty : (AgedMap.empty : AgedMap κ ν).Linked := by
  simp [Linked, AgedMap.empty]

-- The only age of a key is that of its entry.
theorem Linked.mem_agesWithout (h : map.Linked) : toLex (age, key') ∈ map.agesWithout key ↔
    key' ≠ key ∧ toLex (age, key') ∈ map.ages := by
  simp only [agesWithout]
  cases hk : map.entries.lookup key
  case none =>
    have hn (he : key' = key) : toLex (age, key') ∉ map.ages := by
      rw [h, he, hk]
      simp
    exact ⟨fun hm => ⟨fun he => hn he hm, hm⟩, And.right⟩
  case some entry =>
    rw [Finset.mem_erase, Ne, toLex_inj, Prod.mk.injEq]
    constructor
    case mp =>
      intro ⟨hne, hm⟩
      refine ⟨fun he => hne ⟨?_, he⟩, hm⟩
      have ⟨_, hv⟩ := (h age key').mp hm
      rw [he, hk, Option.some.injEq] at hv
      simp [hv]
    case mpr => exact fun ⟨hne, hm⟩ => ⟨fun he => hne he.right, hm⟩

theorem Linked.set (h : map.Linked) (key : κ) (value : ν) (age : Nat) : (map.set key value age).Linked := by
  intro age' key'
  simp only [AgedMap.set, Finset.mem_insert, h.mem_agesWithout, toLex_inj, Prod.mk.injEq]
  by_cases he : key' = key
  case pos =>
    subst he
    simp [eq_comm]
  case neg => simp [he, Finmap.lookup_insert_of_ne _ he, h age' key']

theorem Linked.remove (h : map.Linked) (key : κ) : (map.remove key).Linked := by
  intro age' key'
  simp only [AgedMap.remove, h.mem_agesWithout]
  by_cases he : key' = key
  case pos =>
    subst he
    simp
  case neg => simp [he, Finmap.lookup_erase_ne he, h age' key']

theorem Linked.update (h : map.Linked) (key : κ) (value : ν) : (map.update key value).Linked := by
  simp only [AgedMap.update]
  cases hk : map.entries.lookup key
  case none => exact h
  case some entry =>
    intro age' key'
    rw [h]
    by_cases he : key' = key
    case pos =>
      subst he
      have hage (value' : ν) : entry = ⟨value', age'⟩ ↔ entry.value = value' ∧ entry.lastUsed = age' := by
        cases entry
        simp
      simp [hk, hage]
    case neg => simp [Finmap.lookup_insert_of_ne _ he]

-- Removing the oldest entry is removing its key.
theorem Linked.removeOldest_eq (h : map.Linked) {aged : Nat ×ₗ κ} (ho : map.oldest = some aged) :
    map.removeOldest = map.remove (ofLex aged).snd := by
  have hm : toLex ((ofLex aged).fst, (ofLex aged).snd) ∈ map.ages := by
    simp only [oldest, Option.dite_none_right_eq_some, Option.some.injEq] at ho
    have ⟨hn, he⟩ := ho
    rw [← he]
    exact map.ages.min'_mem hn
  have ⟨value, hv⟩ := (h _ _).mp hm
  simp [AgedMap.removeOldest, ho, AgedMap.remove, agesWithout, hv]

theorem Linked.removeOldest (h : map.Linked) : map.removeOldest.Linked := by
  cases ho : map.oldest
  case none =>
    rw [AgedMap.removeOldest, ho]
    exact h
  case some aged =>
    rw [h.removeOldest_eq ho]
    exact h.remove _

theorem Before.set (h : map.Before age) : (map.set key value age).Before (age + 1) := by
  intro key' entry he
  by_cases hk : key' = key
  case pos =>
    subst hk
    simp only [AgedMap.set, Finmap.lookup_insert, Option.some.injEq] at he
    simp [← he]
  case neg =>
    rw [AgedMap.set, Finmap.lookup_insert_of_ne _ hk] at he
    exact Nat.lt_succ_of_lt (h key' entry he)

theorem Recency.nodup (h : map.Recency keys) : keys.Nodup := by
  apply h.sorted.imp_of_mem
  intro key key' hk _ hlt he
  have ⟨entry, hentry⟩ := Finmap.mem_iff.mp ((h.mem key).mp hk)
  exact Nat.lt_irrefl _ (hlt entry entry hentry (he ▸ hentry))

theorem Recency.empty : (AgedMap.empty : AgedMap κ ν).Recency [] :=
  ⟨fun _ => by simp [AgedMap.empty, Finmap.notMem_empty], .nil⟩

-- An entry that is used becomes the last one.
theorem Recency.set (h : map.Recency keys) (hb : map.Before age) (key : κ) (value : ν) :
    (map.set key value age).Recency (keys.erase key ++ [key]) := by
  have hn := h.nodup
  constructor
  case mem =>
    intro key'
    simp only [AgedMap.set, Finmap.mem_insert, List.mem_append, List.mem_singleton, hn.mem_erase_iff, h.mem]
    grind
  case sorted =>
    apply List.pairwise_append.mpr
    refine ⟨?_, List.pairwise_singleton _ _, ?_⟩
    · apply (h.sorted.sublist List.erase_sublist).imp_of_mem
      intro key₁ key₂ h₁ h₂ hlt
      have hne₁ := (hn.mem_erase_iff.mp h₁).left
      have hne₂ := (hn.mem_erase_iff.mp h₂).left
      simpa only [AgedMap.set, Finmap.lookup_insert_of_ne _ hne₁, Finmap.lookup_insert_of_ne _ hne₂] using hlt
    · intro key₁ h₁ key₂ h₂ entry entry' he he'
      have hne := (hn.mem_erase_iff.mp h₁).left
      rw [List.mem_singleton.mp h₂, AgedMap.set, Finmap.lookup_insert, Option.some.injEq] at he'
      rw [AgedMap.set, Finmap.lookup_insert_of_ne _ hne] at he
      rw [← he']
      exact hb key₁ entry he

theorem lastUsed_update {entry : AgedEntry ν} (he : (map.update key value).entries.lookup key' = some entry) :
    ∃ old, map.entries.lookup key' = some old ∧ old.lastUsed = entry.lastUsed := by
  simp only [update] at he
  cases hk : map.entries.lookup key
  case none =>
    rw [hk] at he
    exact ⟨entry, he, rfl⟩
  case some old =>
    rw [hk] at he
    by_cases hk' : key' = key
    case pos =>
      subst hk'
      simp only [Finmap.lookup_insert, Option.some.injEq] at he
      exact ⟨old, hk, by rw [← he]⟩
    case neg =>
      rw [Finmap.lookup_insert_of_ne _ hk'] at he
      exact ⟨entry, he, rfl⟩

theorem lastUsed_remove {entry : AgedEntry ν} (he : (map.remove key).entries.lookup key' = some entry) :
    ∃ old, map.entries.lookup key' = some old ∧ old.lastUsed = entry.lastUsed := by
  by_cases hk : key' = key
  case pos =>
    subst hk
    simp [remove] at he
  case neg =>
    rw [remove, Finmap.lookup_erase_ne hk] at he
    exact ⟨entry, he, rfl⟩

-- The oldest entry is the first one.
theorem Recency.oldest (h : map.Recency keys) (hl : map.Linked) :
    map.oldest.map (fun aged => (ofLex aged).snd) = keys.head? := by
  cases keys
  case nil =>
    have hn : ¬map.ages.Nonempty := by
      intro ⟨aged, hm⟩
      have ⟨value, hv⟩ := (hl (ofLex aged).fst (ofLex aged).snd).mp hm
      exact absurd ((h.mem _).mpr (Finmap.mem_of_lookup_eq_some hv)) List.not_mem_nil
    simp [AgedMap.oldest, hn]
  case cons key keys =>
    have ⟨entry, he⟩ := Finmap.mem_iff.mp ((h.mem key).mp List.mem_cons_self)
    have hm : toLex (entry.lastUsed, key) ∈ map.ages := (hl _ _).mpr ⟨entry.value, he⟩
    have hn : map.ages.Nonempty := ⟨_, hm⟩
    have hmin := map.ages.min'_mem hn
    have hle := map.ages.min'_le _ hm
    simp only [AgedMap.oldest, hn, dite_true, Option.map_some, List.head?_cons, Option.some.injEq]
    generalize map.ages.min' hn = aged at hmin hle
    by_contra hne
    have ⟨value, hv⟩ := (hl (ofLex aged).fst (ofLex aged).snd).mp hmin
    have hmem := (h.mem _).mpr (Finmap.mem_of_lookup_eq_some hv)
    have hlt := (List.pairwise_cons.mp h.sorted).left _ ((List.mem_cons.mp hmem).resolve_left hne) entry _ he hv
    have := Prod.Lex.le_iff.mp hle
    simp only [ofLex_toLex] at this
    dsimp only at hlt
    omega

-- A map whose entries are some of the entries before, with the same ages.
theorem Recency.restrict (h : map.Recency keys) {map' : AgedMap κ ν}
    (hm : ∀ key entry, map'.entries.lookup key = some entry →
      ∃ old, map.entries.lookup key = some old ∧ old.lastUsed = entry.lastUsed) :
    map'.Recency (keys.filter (· ∈ map'.entries)) := by
  constructor
  case mem =>
    intro key
    rw [List.mem_filter, h.mem, decide_eq_true_eq]
    refine and_iff_right_of_imp fun hk => ?_
    have ⟨entry, he⟩ := Finmap.mem_iff.mp hk
    have ⟨_, hold, _⟩ := hm key entry he
    exact Finmap.mem_of_lookup_eq_some hold
  case sorted =>
    apply (h.sorted.sublist List.filter_sublist).imp
    intro key₁ key₂ hlt entry entry' he he'
    have ⟨old, hold, ha⟩ := hm key₁ entry he
    have ⟨old', hold', ha'⟩ := hm key₂ entry' he'
    rw [← ha, ← ha']
    exact hlt old old' hold hold'

theorem Recency.weight (h : map.Recency keys) (f : ν → Nat) :
    map.weight f = (keys.map fun key => (map.lookup key).elim 0 f).sum := by
  have hk : map.entries.keys = keys.toFinset := by
    ext key
    rw [List.mem_toFinset, h.mem, Finmap.mem_keys]
  rw [AgedMap.weight, hk, List.sum_toFinset _ h.nodup]

variable (map) in
theorem weight_remove (f : ν → Nat) (key : κ) :
    (map.remove key).weight f + (map.lookup key).elim 0 f = map.weight f := by
  have hkeys : (map.remove key).entries.keys = map.entries.keys.erase key := Finmap.keys_erase key map.entries
  have hsum : ∑ key' ∈ map.entries.keys.erase key, ((map.remove key).lookup key').elim 0 f =
      ∑ key' ∈ map.entries.keys.erase key, (map.lookup key').elim 0 f := by
    apply Finset.sum_congr rfl
    intro key' hm
    rw [lookup_remove_of_ne (Finset.ne_of_mem_erase hm)]
  rw [weight, hkeys, hsum, weight]
  by_cases hk : key ∈ map.entries.keys
  case pos => exact Finset.sum_erase_add _ _ hk
  case neg =>
    have hl : map.lookup key = none := by
      rw [lookup, Finmap.lookup_eq_none.mpr (mt Finmap.mem_keys.mpr hk), Option.map_none]
    rw [Finset.erase_eq_of_notMem hk, hl]
    rfl

-- The weights of two maps that differ in one entry.
theorem weight_of_eq {map map' : AgedMap κ ν} {key : κ} (h : ∀ key' ≠ key, map'.entries.lookup key' = map.entries.lookup key')
    (f : ν → Nat) :
    map'.weight f + (map.lookup key).elim 0 f = map.weight f + (map'.lookup key).elim 0 f := by
  have he : (map'.remove key).entries = (map.remove key).entries := by
    apply Finmap.ext_lookup
    intro key'
    by_cases hk : key' = key
    case pos =>
      subst hk
      simp [remove]
    case neg => simp [remove, Finmap.lookup_erase_ne hk, h key' hk]
  have hw : (map'.remove key).weight f = (map.remove key).weight f := by simp only [weight, lookup, he]
  have := map.weight_remove f key
  have := map'.weight_remove f key
  omega

variable (map) in
theorem weight_set (f : ν → Nat) (key : κ) (value : ν) (age : Nat) :
    (map.set key value age).weight f + (map.lookup key).elim 0 f = map.weight f + f value := by
  have := @weight_of_eq _ _ _ map (map.set key value age) key (fun key' hk => Finmap.lookup_insert_of_ne _ hk) f
  rwa [lookup_set] at this

variable (map) in
theorem weight_update (f : ν → Nat) (key : κ) (value : ν) (h : (map.lookup key).isSome) :
    (map.update key value).weight f + (map.lookup key).elim 0 f = map.weight f + f value := by
  have := @weight_of_eq _ _ _ map (map.update key value) key (fun key' hk => by
    simp only [update]
    cases map.entries.lookup key
    case none => rfl
    case some => exact Finmap.lookup_insert_of_ne _ hk) f
  rwa [lookup_update h] at this

variable (map) in
theorem size_eq_weight : map.size = map.weight fun _ => 1 := by
  rw [size, weight, Finset.card_eq_sum_ones]
  apply Finset.sum_congr rfl
  intro key hk
  have ⟨value, hv⟩ := mem_iff.mp (Finmap.mem_keys.mp hk)
  rw [hv]
  rfl

variable (map) in
theorem size_set (key : κ) (value : ν) (age : Nat) :
    (map.set key value age).size = map.size + if (map.lookup key).isNone then 1 else 0 := by
  have h := map.weight_set (fun _ => 1) key value age
  rw [size_eq_weight, size_eq_weight]
  cases hl : map.lookup key
  case none =>
    rw [hl] at h
    simpa using h
  case some =>
    rw [hl] at h
    simpa using h

variable (map) in
theorem size_remove (key : κ) :
    (map.remove key).size + (if (map.lookup key).isSome then 1 else 0) = map.size := by
  have h := map.weight_remove (fun _ => 1) key
  rw [size_eq_weight, size_eq_weight]
  cases hl : map.lookup key
  case none =>
    rw [hl] at h
    simpa using h
  case some =>
    rw [hl] at h
    simpa using h

theorem Linked.size_removeOldest (h : map.Linked) (hs : 0 < map.size) : map.removeOldest.size + 1 = map.size := by
  cases ho : map.oldest
  case none =>
    have ⟨key, hk⟩ := Finset.card_pos.mp hs
    have ⟨entry, he⟩ := Finmap.mem_iff.mp (Finmap.mem_keys.mp hk)
    have hm : toLex (entry.lastUsed, key) ∈ map.ages := (h _ _).mpr ⟨entry.value, he⟩
    simp [oldest, show map.ages.Nonempty from ⟨_, hm⟩] at ho
  case some aged =>
    have hl : (map.lookup (ofLex aged).snd).isSome := by
      simp only [oldest, Option.dite_none_right_eq_some, Option.some.injEq] at ho
      have ⟨hn, he⟩ := ho
      have hm : toLex ((ofLex aged).fst, (ofLex aged).snd) ∈ map.ages := he ▸ map.ages.min'_mem hn
      have ⟨value, hv⟩ := (h _ _).mp hm
      simp [lookup, hv]
    have hr := map.size_remove (ofLex aged).snd
    rwa [if_pos hl, ← h.removeOldest_eq ho] at hr

end AgedMap
