import Mathlib

-- Blocks whose sizes are powers of two, kept in lists by class: a block of class `i` has `2 ^ i` items. Whatever a
-- block weighs is the sum of what its halves weigh.
namespace BuddyBlocks

structure Splits (weight : Nat → Nat → Nat) : Prop where
  halves : ∀ i start, weight (i + 1) start = weight i start + weight i (start + 2 ^ i)

-- Whether an item lies in a block.
def covers (item : Nat) (i start : Nat) : Nat :=
  if start ≤ item ∧ item < start + 2 ^ i then 1 else 0

theorem splits_covers (item : Nat) : Splits (covers item) where
  halves i start := by
    have := Nat.two_pow_pos i
    simp only [covers, Nat.pow_succ]
    grind

theorem splits_size : Splits fun i _ => 2 ^ i where
  halves i start := by rw [Nat.pow_succ, Nat.mul_two]

theorem covers_start (i start : Nat) : covers start i start = 1 :=
  if_pos ⟨Nat.le_refl _, Nat.lt_add_of_pos_right (Nat.two_pow_pos i)⟩

-- What the items of a range weigh together.
def span (weight : Nat → Nat → Nat) (start items : Nat) : Nat :=
  ∑ k ∈ Finset.range items, weight 0 (start + k)

theorem span_add (weight : Nat → Nat → Nat) (start m n : Nat) :
    span weight start (m + n) = span weight start m + span weight (start + m) n := by
  simp only [span, Finset.sum_range_add, Nat.add_assoc]

theorem Splits.span_eq {weight : Nat → Nat → Nat} (h : Splits weight) (i start : Nat) :
    span weight start (2 ^ i) = weight i start := by
  induction i generalizing start
  case zero => simp [span]
  case succ i hi => rw [Nat.pow_succ, Nat.mul_two, span_add, hi, hi, h.halves]

theorem span_covers (item start items : Nat) :
    span (covers item) start items = if start ≤ item ∧ item < start + items then 1 else 0 := by
  induction items
  case zero => simp [span]
  case succ items hi =>
    rw [span_add, hi]
    simp only [span, covers, Finset.sum_range_one, Nat.add_zero, Nat.pow_zero]
    grind

theorem span_size (start items : Nat) : span (fun i _ => 2 ^ i) start items = items := by
  simp [span]

-- What the blocks of the first `order` classes weigh together.
def total (order : Nat) (weight : Nat → Nat → Nat) (free : Nat → List Nat) : Nat :=
  ∑ i ∈ Finset.range order, ((free i).map (weight i)).sum

variable {order i start : Nat} {weight : Nat → Nat → Nat} {free : Nat → List Nat} {l : List Nat}

theorem total_update (weight : Nat → Nat → Nat) (free : Nat → List Nat) (l : List Nat) (h : i < order) :
    total order weight (Function.update free i l) + ((free i).map (weight i)).sum =
    total order weight free + (l.map (weight i)).sum := by
  have hi : i ∈ Finset.range order := Finset.mem_range.mpr h
  simp only [total]
  rw [← Finset.add_sum_erase _ _ hi, ← Finset.add_sum_erase _ (fun i => ((free i).map (weight i)).sum) hi,
    Function.update_self]
  have hrest : ∑ j ∈ (Finset.range order).erase i, ((Function.update free i l j).map (weight j)).sum =
      ∑ j ∈ (Finset.range order).erase i, ((free j).map (weight j)).sum :=
    Finset.sum_congr rfl fun j hj => by rw [Function.update_of_ne (Finset.ne_of_mem_erase hj)]
  rw [hrest]
  omega

-- A block of a list weighs at most what all blocks weigh.
theorem le_total (h : i < order) (hm : start ∈ free i) : weight i start ≤ total order weight free := by
  calc weight i start
      ≤ ((free i).map (weight i)).sum := List.le_sum_of_mem (List.mem_map_of_mem hm)
    _ ≤ total order weight free :=
        Finset.single_le_sum (f := fun i => ((free i).map (weight i)).sum) (fun _ _ => Nat.zero_le _)
          (Finset.mem_range.mpr h)

-- Two blocks of different classes that hold the same item cover it twice.
theorem covers_add_le_total {j start' : Nat} (item : Nat) (hi : i < order) (hj : j < order) (hne : i ≠ j)
    (hm : start ∈ free i) (hm' : start' ∈ free j) :
    covers item i start + covers item j start' ≤ total order (covers item) free := by
  have hle {k b : Nat} (hb : b ∈ free k) : covers item k b ≤ ((free k).map (covers item k)).sum :=
    List.le_sum_of_mem (List.mem_map_of_mem hb)
  have hsub : ({i, j} : Finset Nat) ⊆ Finset.range order := by
    intro k hk
    rcases Finset.mem_insert.mp hk with rfl | hk
    case inl => exact Finset.mem_range.mpr hi
    case inr => exact Finset.mem_range.mpr (Finset.mem_singleton.mp hk ▸ hj)
  calc covers item i start + covers item j start'
      ≤ ∑ k ∈ ({i, j} : Finset Nat), ((free k).map (covers item k)).sum := by
        rw [Finset.sum_pair hne]
        exact Nat.add_le_add (hle hm) (hle hm')
    _ ≤ total order (covers item) free := Finset.sum_le_sum_of_subset hsub

-- The other half of the block that a block is a half of.
def buddy (i start : Nat) : Nat :=
  start ^^^ 2 ^ i

theorem buddy_mul_even (i k : Nat) : buddy i (2 ^ i * (2 * k)) = 2 ^ i * (2 * k + 1) := by
  have h : (2 * k) ^^^ 1 = 2 * k + 1 := by
    apply Nat.eq_of_testBit_eq
    intro j
    cases j <;> simp [Nat.testBit_succ, Nat.mul_add_div]
  calc buddy i (2 ^ i * (2 * k))
      = (2 * k) <<< i ^^^ 1 <<< i := by simp [buddy, Nat.shiftLeft_eq, Nat.mul_comm]
    _ = ((2 * k) ^^^ 1) <<< i := (Nat.shiftLeft_xor_distrib ..).symm
    _ = 2 ^ i * (2 * k + 1) := by rw [h, Nat.shiftLeft_eq, Nat.mul_comm]

theorem buddy_mul_odd (i k : Nat) : buddy i (2 ^ i * (2 * k + 1)) = 2 ^ i * (2 * k) := by
  rw [← buddy_mul_even, buddy, buddy, Nat.xor_assoc, Nat.xor_self, Nat.xor_zero]

-- An aligned block and its buddy are the halves of an aligned block.
structure Joins (i start : Nat) : Prop where
  aligned : 2 ^ (i + 1) ∣ min start (buddy i start)
  weight  : ∀ weight, Splits weight →
              weight (i + 1) (min start (buddy i start)) = weight i start + weight i (buddy i start)

theorem joins (h : 2 ^ i ∣ start) : Joins i start := by
  obtain ⟨k, rfl⟩ := h
  have hlt (k : Nat) : 2 ^ i * (2 * k) < 2 ^ i * (2 * k + 1) :=
    Nat.mul_lt_mul_of_pos_left (Nat.lt_succ_self _) (Nat.two_pow_pos i)
  have hadd (k : Nat) : 2 ^ i * (2 * k + 1) = 2 ^ i * (2 * k) + 2 ^ i := by rw [Nat.mul_succ]
  have hdvd (k : Nat) : 2 ^ (i + 1) ∣ 2 ^ i * (2 * k) := ⟨k, by rw [Nat.pow_succ, Nat.mul_assoc]⟩
  rcases Nat.mod_two_eq_zero_or_one k with hk | hk
  case inl =>
    rw [show k = 2 * (k / 2) by omega]
    constructor
    case aligned => rw [buddy_mul_even, Nat.min_eq_left (hlt _).le]; exact hdvd _
    case weight =>
      intro weight hw
      rw [buddy_mul_even, Nat.min_eq_left (hlt _).le, hw.halves, hadd]
  case inr =>
    rw [show k = 2 * (k / 2) + 1 by omega]
    constructor
    case aligned => rw [buddy_mul_odd, Nat.min_eq_right (hlt _).le]; exact hdvd _
    case weight =>
      intro weight hw
      rw [buddy_mul_odd, Nat.min_eq_right (hlt _).le, hw.halves, hadd, Nat.add_comm]

-- Blocks of any classes, each as its class and where it starts.
section

variable {blocks blocks' : Multiset (Nat × Nat)} {block : Nat × Nat}

def weigh (weight : Nat → Nat → Nat) (blocks : Multiset (Nat × Nat)) : Nat :=
  (blocks.map fun block => weight block.1 block.2).sum

@[simp]
theorem weigh_zero (weight : Nat → Nat → Nat) : weigh weight 0 = 0 :=
  rfl

@[simp]
theorem weigh_cons (weight : Nat → Nat → Nat) (block : Nat × Nat) (blocks : Multiset (Nat × Nat)) :
    weigh weight (block ::ₘ blocks) = weight block.1 block.2 + weigh weight blocks := by
  simp [weigh]

@[simp]
theorem weigh_add (weight : Nat → Nat → Nat) (blocks blocks' : Multiset (Nat × Nat)) :
    weigh weight (blocks + blocks') = weigh weight blocks + weigh weight blocks' := by
  simp [weigh]

theorem le_weigh (weight : Nat → Nat → Nat) (h : block ∈ blocks) :
    weight block.1 block.2 ≤ weigh weight blocks := by
  obtain ⟨rest, rfl⟩ := Multiset.exists_cons_of_mem h
  rw [weigh_cons]
  exact Nat.le_add_right ..

-- Blocks are aligned to their sizes, and no item lies in two of them.
structure Apart (blocks : Multiset (Nat × Nat)) : Prop where
  aligned : ∀ block ∈ blocks, 2 ^ block.1 ∣ block.2
  once    : ∀ item, weigh (covers item) blocks ≤ 1

theorem Apart.of_le (h : Apart blocks) (hle : blocks' ≤ blocks) : Apart blocks' where
  aligned block hb := h.aligned block (Multiset.mem_of_le hle hb)
  once item := by
    obtain ⟨rest, rfl⟩ := Multiset.le_iff_exists_add.mp hle
    have := h.once item
    rw [weigh_add] at this
    omega

theorem Apart.of_cons (h : Apart (block ::ₘ blocks)) : Apart blocks :=
  h.of_le (Multiset.le_cons_self ..)

theorem Splits.weigh_split (h : Splits weight) (i start : Nat) (blocks : Multiset (Nat × Nat)) :
    weigh weight ((i, start) ::ₘ (i, start + 2 ^ i) ::ₘ blocks) = weigh weight ((i + 1, start) ::ₘ blocks) := by
  simp only [weigh_cons, h.halves, Nat.add_assoc]

theorem Splits.weigh_join (h : Splits weight) (hd : 2 ^ i ∣ start) (blocks : Multiset (Nat × Nat)) :
    weigh weight ((i + 1, min start (buddy i start)) ::ₘ blocks) =
      weigh weight ((i, start) ::ₘ (i, buddy i start) ::ₘ blocks) := by
  simp only [weigh_cons, (joins hd).weight weight h, Nat.add_assoc]

-- A block is split into its halves.
theorem Apart.split (h : Apart ((i + 1, start) ::ₘ blocks)) :
    Apart ((i, start) ::ₘ (i, start + 2 ^ i) ::ₘ blocks) where
  aligned block hb := by
    have hd : 2 ^ i ∣ start :=
      (Nat.pow_dvd_pow 2 (Nat.le_succ i)).trans (h.aligned _ (Multiset.mem_cons_self ..))
    rcases Multiset.mem_cons.mp hb with rfl | hb
    case inl => exact hd
    case inr =>
      rcases Multiset.mem_cons.mp hb with rfl | hb
      case inl => exact (Nat.dvd_add_iff_left (Nat.dvd_refl _)).mp hd
      case inr => exact h.aligned block (Multiset.mem_cons_of_mem hb)
  once item := by
    rw [(splits_covers item).weigh_split]
    exact h.once item

-- A block and its buddy become one.
theorem Apart.join (h : Apart ((i, start) ::ₘ (i, buddy i start) ::ₘ blocks)) :
    Apart ((i + 1, min start (buddy i start)) ::ₘ blocks) where
  aligned block hb := by
    rcases Multiset.mem_cons.mp hb with rfl | hb
    case inl => exact (joins (h.aligned _ (Multiset.mem_cons_self ..))).aligned
    case inr => exact h.of_cons.of_cons.aligned block hb
  once item := by
    rw [(splits_covers item).weigh_join (h.aligned _ (Multiset.mem_cons_self ..))]
    exact h.once item

theorem buddy_ne (i start : Nat) : buddy i start ≠ start := by
  intro h
  have hzero : 2 ^ i = 0 := by
    calc 2 ^ i
        = start ^^^ (start ^^^ 2 ^ i) := by rw [← Nat.xor_assoc, Nat.xor_self, Nat.zero_xor]
      _ = 0 := by rw [show start ^^^ 2 ^ i = start from h, Nat.xor_self]
  exact Nat.ne_of_gt (Nat.two_pow_pos i) hzero

-- The blocks of the first `order` classes.
def freeBlocks (order : Nat) (free : Nat → List Nat) : Multiset (Nat × Nat) :=
  ∑ i ∈ Finset.range order, ((free i).map (i, ·) : Multiset (Nat × Nat))

theorem weigh_freeBlocks (weight : Nat → Nat → Nat) (order : Nat) (free : Nat → List Nat) :
    weigh weight (freeBlocks order free) = total order weight free := by
  simp only [freeBlocks, total]
  induction order
  case zero => rfl
  case succ order hi =>
    rw [Finset.sum_range_succ, Finset.sum_range_succ, weigh_add, hi]
    simp [weigh, Function.comp_def]

theorem freeBlocks_insert (h : i < order) (hp : l.Perm (start :: free i)) :
    freeBlocks order (Function.update free i l) = (i, start) ::ₘ freeBlocks order free := by
  have hi : i ∈ Finset.range order := Finset.mem_range.mpr h
  have hrest : ∑ j ∈ (Finset.range order).erase i, ((Function.update free i l j).map (j, ·) : Multiset (Nat × Nat)) =
      ∑ j ∈ (Finset.range order).erase i, ((free j).map (j, ·) : Multiset (Nat × Nat)) :=
    Finset.sum_congr rfl fun j hj => by rw [Function.update_of_ne (Finset.ne_of_mem_erase hj)]
  have hhead : (l.map (i, ·) : Multiset (Nat × Nat)) = (i, start) ::ₘ ((free i).map (i, ·) : Multiset (Nat × Nat)) :=
    Multiset.coe_eq_coe.mpr (hp.map (i, ·))
  simp only [freeBlocks]
  rw [← Finset.add_sum_erase _ _ hi,
    ← Finset.add_sum_erase _ (fun j => ((free j).map (j, ·) : Multiset (Nat × Nat))) hi,
    Function.update_self, hrest, hhead, Multiset.cons_add]

theorem freeBlocks_remove (h : i < order) (hp : (free i).Perm (start :: l)) :
    (i, start) ::ₘ freeBlocks order (Function.update free i l) = freeBlocks order free := by
  have hinsert := @freeBlocks_insert _ _ _ (Function.update free i l) (free i) h (by rwa [Function.update_self])
  rw [Function.update_idem, Function.update_eq_self] at hinsert
  exact hinsert.symm

end

end BuddyBlocks
