import Mathlib

-- What an entry of a directory leads to.
inductive DirEntry (α : Type)
  | invalid
  | table (frame : Nat) (entries : α)

-- Tables in several levels, as they are used for the translation of addresses. Those on level zero hold the entries of
-- the keys, and the ones above are directories. Every table but the one at the top lies in a frame of its own.
@[reducible]
def TableTree (β : Type) : Nat → Type
  | 0         => Nat → Option β
  | level + 1 => Nat → DirEntry (TableTree β level)

namespace TableTree

variable {β : Type}

-- The entry of a key in a table. A table has `width` entries.
def index (width level key : Nat) : Nat :=
  key / width ^ level % width

def empty : (level : Nat) → TableTree β level
  | 0     => fun _ => none
  | _ + 1 => fun _ => .invalid

def lookup (width : Nat) : (level : Nat) → TableTree β level → (key : Nat) → Option β
  | 0, tables, key => tables (index width 0 key)
  | level + 1, tables, key =>
    match tables (index width (level + 1) key) with
    | .invalid         => none
    | .table _ entries => lookup width level entries key

-- Writes the entry of a key. The tables that are missing on the way come from the supply, and there is no result if
-- the supply runs out.
def map (width : Nat) : (level : Nat) → TableTree β level → (key : Nat) → Option β → (supply : List Nat) →
    Option (TableTree β level × List Nat)
  | 0, tables, key, entry, supply => some (Function.update tables (index width 0 key) entry, supply)
  | level + 1, tables, key, entry, supply =>
    match tables (index width (level + 1) key), supply with
    | .table frame entries, supply =>
      match map width level entries key entry supply with
      | none => none
      | some (entries, supply) =>
        some (Function.update tables (index width (level + 1) key) (.table frame entries), supply)
    | .invalid, [] => none
    | .invalid, frame :: supply =>
      match map width level (empty level) key entry supply with
      | none => none
      | some (entries, supply) =>
        some (Function.update tables (index width (level + 1) key) (.table frame entries), supply)

-- Clears the entry of a key. The tables on the way stay, even if they become empty.
def unmap (width : Nat) : (level : Nat) → TableTree β level → (key : Nat) → TableTree β level
  | 0, tables, key => Function.update tables (index width 0 key) none
  | level + 1, tables, key =>
    match tables (index width (level + 1) key) with
    | .invalid => tables
    | .table frame entries =>
      Function.update tables (index width (level + 1) key) (.table frame (unmap width level entries key))

-- One of the tables lies in the frame.
def Holds : (level : Nat) → TableTree β level → (frame : Nat) → Prop
  | 0, _, _ => False
  | level + 1, tables, frame =>
    ∃ i frame' entries, tables i = .table frame' entries ∧ (frame' = frame ∨ Holds level entries frame)

-- The tables of the first tree are at the same places in the second one.
def Extends : (level : Nat) → TableTree β level → TableTree β level → Prop
  | 0, _, _ => True
  | level + 1, tables, tables' =>
    ∀ i frame entries, tables i = .table frame entries →
      ∃ entries', tables' i = .table frame entries' ∧ Extends level entries entries'

-- The keys that share their entries.
def SameSlot (width level key key' : Nat) : Prop :=
  key % width ^ (level + 1) = key' % width ^ (level + 1)

variable {width level key key' frame : Nat} {tables tables' tables'' : TableTree β level} {entry : Option β}
variable {supply supply' : List Nat}

theorem SameSlot.succ_iff : SameSlot width (level + 1) key key' ↔
    index width (level + 1) key = index width (level + 1) key' ∧ SameSlot width level key key' := by
  simp only [SameSlot, index, Nat.pow_succ _ (level + 1), Nat.mod_mul]
  constructor
  case mp =>
    intro h
    cases Nat.eq_zero_or_pos (width ^ (level + 1))
    case inl hz => simp [hz] at h ⊢; simp [h]
    case inr hp =>
      have hm := congrArg (· % width ^ (level + 1)) h
      have hd := congrArg (· / width ^ (level + 1)) h
      simp only [Nat.add_mul_mod_self_left, Nat.mod_mod, Nat.add_mul_div_left _ _ hp,
        Nat.div_eq_of_lt (Nat.mod_lt _ hp), Nat.zero_add] at hm hd
      exact ⟨hd, hm⟩
  case mpr => exact fun ⟨hd, hm⟩ => by rw [hd, hm]

theorem SameSlot.zero_iff : SameSlot width 0 key key' ↔ index width 0 key = index width 0 key' := by
  simp [SameSlot, index]

@[simp]
theorem lookup_empty : lookup width level (empty level : TableTree β level) key = none := by
  cases level <;> rfl

theorem Extends.refl (tables : TableTree β level) : Extends level tables tables := by
  induction level
  case zero => trivial
  case succ level hi => exact fun _ _ entries h => ⟨entries, h, hi entries⟩

theorem Extends.trans (h : Extends level tables tables') (h' : Extends level tables' tables'') :
    Extends level tables tables'' := by
  induction level
  case zero => trivial
  case succ level hi =>
    intro i frame entries he
    have ⟨entries', he', hx⟩ := h i frame entries he
    have ⟨entries'', he'', hx'⟩ := h' i frame entries' he'
    exact ⟨entries'', he'', hi hx hx'⟩

theorem Extends.holds (h : Extends level tables tables') (hh : Holds level tables frame) :
    Holds level tables' frame := by
  induction level
  case zero => exact hh
  case succ level hi =>
    have ⟨i, frame', entries, he, hf⟩ := hh
    have ⟨entries', he', hx⟩ := h i frame' entries he
    exact ⟨i, frame', entries', he', hf.imp_right (hi hx)⟩

-- The entry at one index leads to a table that extends the one from before, if there was one.
theorem Extends.update {tables : TableTree β (level + 1)} {entries : TableTree β level} (i : Nat)
    (h : ∀ frame' entries', tables i = .table frame' entries' → frame' = frame ∧ Extends level entries' entries) :
    Extends (level + 1) tables (Function.update tables i (.table frame entries)) := by
  intro j frame' entries' he
  by_cases hj : j = i
  case pos =>
    subst hj
    have ⟨hf, hx⟩ := h frame' entries' he
    exact ⟨entries, by rw [Function.update_self, hf], hx⟩
  case neg => exact ⟨entries', by rw [Function.update_of_ne hj, he], .refl _⟩

theorem map_extends (h : map width level tables key entry supply = some (tables', supply')) :
    Extends level tables tables' := by
  induction level generalizing supply
  case zero => trivial
  case succ level hi =>
    simp only [map] at h
    split at h
    case h_1 _ frame entries he =>
      split at h <;> cases h
      case h_2 entries' hm =>
        exact .update _ fun frame' entries'' he' => by
          cases he.symm.trans he'
          exact ⟨rfl, hi hm⟩
    case h_2 => cases h
    case h_3 frame _ he =>
      split at h <;> cases h
      exact .update _ fun frame' entries'' he' => by cases he.symm.trans he'

theorem unmap_extends : Extends level tables (unmap width level tables key) := by
  induction level
  case zero => trivial
  case succ level hi =>
    simp only [unmap]
    split
    case h_1 => exact .refl _
    case h_2 frame entries he =>
      exact .update _ fun frame' entries'' he' => by
        cases he.symm.trans he'
        exact ⟨rfl, hi⟩

-- The frames that a mapping takes from the supply hold tables afterwards.
theorem map_supply (h : map width level tables key entry supply = some (tables', supply')) :
    ∃ taken, supply = taken ++ supply' ∧ ∀ frame ∈ taken, Holds level tables' frame := by
  induction level generalizing supply
  case zero =>
    cases h
    exact ⟨[], rfl, by simp⟩
  case succ level hi =>
    simp only [map] at h
    split at h
    case h_1 _ frame entries he =>
      split at h <;> cases h
      case h_2 entries' hm =>
        have ⟨taken, hs, ht⟩ := hi hm
        exact ⟨taken, hs, fun f hf => ⟨_, frame, entries', Function.update_self .., .inr (ht f hf)⟩⟩
    case h_2 => cases h
    case h_3 frame supply he =>
      split at h <;> cases h
      case h_2 entries' hm =>
        have ⟨taken, hs, ht⟩ := hi hm
        refine ⟨frame :: taken, by simp [hs], fun f hf => ⟨_, frame, entries', Function.update_self .., ?_⟩⟩
        exact (List.mem_cons.mp hf).imp Eq.symm (ht f)

theorem lookup_update {tables : TableTree β (level + 1)} {entries : TableTree β level} {i : Nat} :
    lookup width (level + 1) (Function.update tables i (.table frame entries)) key =
    if index width (level + 1) key = i then lookup width level entries key
    else lookup width (level + 1) tables key := by
  by_cases hi : index width (level + 1) key = i
  case pos => simp only [lookup, hi, Function.update_self, ite_true]
  case neg => simp only [lookup, Function.update_of_ne hi, if_neg hi]

-- A mapping changes what is found for the keys that share the entry, and nothing else.
theorem lookup_map (h : map width level tables key entry supply = some (tables', supply')) :
    (SameSlot width level key' key → lookup width level tables' key' = entry) ∧
    (¬SameSlot width level key' key → lookup width level tables' key' = lookup width level tables key') := by
  induction level generalizing supply
  case zero =>
    cases h
    rw [SameSlot.zero_iff]
    exact ⟨fun hk => by simp only [lookup, hk, Function.update_self],
      fun hk => by simp only [lookup, Function.update_of_ne hk]⟩
  case succ level hi =>
    rw [SameSlot.succ_iff]
    simp only [map] at h
    split at h
    case h_1 _ frame entries he =>
      split at h <;> cases h
      case h_2 entries' hm =>
        have ⟨hsame, hother⟩ := hi hm
        rw [lookup_update]
        refine ⟨fun ⟨hk, hs⟩ => by rw [if_pos hk, hsame hs], fun hn => ?_⟩
        split
        case isTrue hk => rw [hother fun hs => hn ⟨hk, hs⟩, lookup, hk, he]
        case isFalse => rfl
    case h_2 => cases h
    case h_3 frame _ he =>
      split at h <;> cases h
      case h_2 entries' hm =>
        have ⟨hsame, hother⟩ := hi hm
        rw [lookup_update]
        refine ⟨fun ⟨hk, hs⟩ => by rw [if_pos hk, hsame hs], fun hn => ?_⟩
        split
        case isTrue hk => rw [hother fun hs => hn ⟨hk, hs⟩, lookup_empty, lookup, hk, he]
        case isFalse => rfl

theorem lookup_unmap (width : Nat) (tables : TableTree β level) (key key' : Nat) :
    (SameSlot width level key' key → lookup width level (unmap width level tables key) key' = none) ∧
    (¬SameSlot width level key' key →
      lookup width level (unmap width level tables key) key' = lookup width level tables key') := by
  induction level
  case zero =>
    rw [SameSlot.zero_iff]
    exact ⟨fun hk => by simp only [unmap, lookup, hk, Function.update_self],
      fun hk => by simp only [unmap, lookup, Function.update_of_ne hk]⟩
  case succ level hi =>
    rw [SameSlot.succ_iff]
    simp only [unmap]
    split
    case h_1 he => exact ⟨fun ⟨hk, _⟩ => by rw [lookup, hk, he], fun _ => rfl⟩
    case h_2 frame entries he =>
      have ⟨hsame, hother⟩ := hi entries
      rw [lookup_update]
      refine ⟨fun ⟨hk, hs⟩ => by rw [if_pos hk, hsame hs], fun hn => ?_⟩
      split
      case isTrue hk => rw [hother fun hs => hn ⟨hk, hs⟩, lookup, hk, he]
      case isFalse => rfl

end TableTree
