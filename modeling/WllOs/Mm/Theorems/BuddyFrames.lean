import WllOs.Mm.BuddyFrames

namespace WllOs

variable {n k : Nat}

theorem nextPowerOfTwo_eq (n : Nat) : ∃ k, nextPowerOfTwo n = 2 ^ k := by
  rw [nextPowerOfTwo]
  split
  case isTrue  => exact ⟨0, rfl⟩
  case isFalse => exact ⟨_, rfl⟩

theorem le_nextPowerOfTwo (n : Nat) : n ≤ nextPowerOfTwo n := by
  rw [nextPowerOfTwo]
  split
  case isTrue h  => exact h
  case isFalse h =>
    have : n - 1 < 2 ^ (Nat.log2 (n - 1) + 1) := Nat.lt_log2_self
    omega

theorem nextPowerOfTwo_two_pow (k : Nat) : nextPowerOfTwo (2 ^ k) = 2 ^ k := by
  rw [nextPowerOfTwo]
  cases k
  case zero   => rfl
  case succ k =>
    have hk : 0 < 2 ^ k := Nat.two_pow_pos k
    have hs : 2 ^ (k + 1) = 2 * 2 ^ k := Nat.pow_succ' ..
    have hlog : Nat.log2 (2 ^ (k + 1) - 1) = k :=
      (Nat.log2_eq_iff (by omega)).mpr ⟨by omega, by omega⟩
    rw [if_neg (by omega), hlog]

theorem lowbit_mul_odd (k q : Nat) (hlt : 2 ^ k * (2 * q + 1) < 2 ^ 64) : lowbit (2 ^ k * (2 * q + 1)) = 2 ^ k := by
  have hpos : 0 < 2 ^ k := Nat.two_pow_pos k
  have hpred : 2 ^ k * (2 * q + 1) = 2 ^ k * (2 * q) + (2 ^ k - 1) + 1 := by
    rw [Nat.mul_succ]
    omega
  have hk : k < 64 := by
    by_contra hge
    have : 2 ^ 64 ≤ 2 ^ k := Nat.pow_le_pow_right Nat.two_pos (Nat.le_of_not_lt hge)
    have : 2 ^ k ≤ 2 ^ k * (2 * q + 1) := Nat.le_mul_of_pos_right _ (Nat.succ_pos _)
    omega
  apply Nat.eq_of_testBit_eq
  intro i
  have hx : (2 ^ k * (2 * q + 1)).testBit i = if i < k then false else (2 * q + 1).testBit (i - k) := by
    simpa using Nat.testBit_two_pow_mul_add (2 * q + 1) (b := 0) hpos i
  have hy : (2 ^ 64 - 2 ^ k * (2 * q + 1)).testBit i =
      (decide (i < 64) && !if i < k then decide (i < k) else (2 * q).testBit (i - k)) := by
    rw [hpred, Nat.testBit_two_pow_sub_succ (by omega),
      Nat.testBit_two_pow_mul_add _ (Nat.sub_lt hpos Nat.one_pos), Nat.testBit_two_pow_sub_one]
  rw [lowbit, Nat.testBit_and, hx, hy, Nat.testBit_two_pow]
  rcases Nat.lt_trichotomy i k with hi | rfl | hi
  case inl => simp [hi, Nat.ne_of_gt hi]
  case inr.inl => simp [hk, Nat.testBit_zero]
  case inr.inr =>
    obtain ⟨j, hj⟩ := Nat.exists_eq_add_of_lt hi
    have hs : i - k = j + 1 := by omega
    simp +contextual [Nat.not_lt_of_gt hi, hs, Nat.testBit_succ, Nat.ne_of_lt hi, Nat.mul_add_div]

theorem lowbit_dvd (hn : 0 < n) (hlt : n < 2 ^ 64) : ∃ k, lowbit n = 2 ^ k ∧ 2 ^ k ∣ n := by
  obtain ⟨k, m, ⟨q, rfl⟩, rfl⟩ := Nat.exists_eq_two_pow_mul_odd (Nat.ne_of_gt hn)
  exact ⟨k, lowbit_mul_odd k q hlt, Nat.dvd_mul_right ..⟩

theorem dvd_lowbit (hn : 0 < n) (hlt : n < 2 ^ 64) (hd : 8 ∣ n) : 8 ∣ lowbit n := by
  obtain ⟨k, m, ⟨q, rfl⟩, rfl⟩ := Nat.exists_eq_two_pow_mul_odd (Nat.ne_of_gt hn)
  rw [lowbit_mul_odd k q hlt]
  by_cases hk : 3 ≤ k
  case pos => exact Nat.pow_dvd_pow 2 hk
  case neg =>
    rw [Nat.not_le] at hk
    interval_cases k <;> omega

namespace FrameAllocator

open BuddyBlocks

variable {allocator : FrameAllocator} {cls block ppn : Nat} {weight : Nat → Nat → Nat}

def weigh (allocator : FrameAllocator) (weight : Nat → Nat → Nat) : Nat :=
  total order weight allocator.freeList

-- Blocks are aligned to their sizes and do not overlap. There are no pages of number 0 or from 2 ^ 32 on.
structure Wf (allocator : FrameAllocator) : Prop where
  aligned : ∀ i < order, ∀ block ∈ allocator.freeList i, 2 ^ i ∣ block
  once    : ∀ ppn, allocator.cover ppn ≤ 1
  bounds  : ∀ ppn, 0 < allocator.cover ppn → 0 < ppn ∧ ppn < 2 ^ order

theorem weigh_insert (weight : Nat → Nat → Nat) (hc : cls < order) (hn : block ∉ allocator.freeList cls) :
    (allocator.insert cls block).weigh weight = allocator.weigh weight + weight cls block := by
  have h := total_update weight allocator.freeList ((allocator.freeList cls).orderedInsert (· ≤ ·) block) hc
  have hp := ((List.perm_orderedInsert (· ≤ ·) block (allocator.freeList cls)).map (weight cls)).sum_eq
  rw [List.map_cons, List.sum_cons] at hp
  simp only [weigh, insert, if_neg hn]
  omega

theorem weigh_remove (weight : Nat → Nat → Nat) (hc : cls < order) (hm : block ∈ allocator.freeList cls) :
    (allocator.remove cls block).weigh weight + weight cls block = allocator.weigh weight := by
  have h := total_update weight allocator.freeList ((allocator.freeList cls).erase block) hc
  have hp := ((List.perm_cons_erase hm).map (weight cls)).sum_eq
  rw [List.map_cons, List.sum_cons] at hp
  simp only [weigh, remove]
  omega

theorem mem_insert {i b : Nat} : b ∈ (allocator.insert cls block).freeList i ↔
    b ∈ allocator.freeList i ∨ i = cls ∧ b = block := by
  simp only [insert]
  by_cases hi : i = cls
  case pos =>
    subst hi
    split
    case isTrue hm => exact ⟨.inl, fun h => h.elim id fun h => h.2 ▸ hm⟩
    case isFalse   => simp [List.mem_orderedInsert, or_comm]
  case neg =>
    split <;> simp [hi]

theorem mem_of_mem_remove {i b : Nat} (h : b ∈ (allocator.remove cls block).freeList i) : b ∈ allocator.freeList i := by
  simp only [remove, Function.update_apply] at h
  split at h
  case isTrue hi  => exact hi ▸ List.mem_of_mem_erase h
  case isFalse    => exact h

-- A page of a free block is the first page of no other block.
theorem Wf.not_mem {i j b b' : Nat} (h : allocator.Wf) (hi : i < order) (hj : j < order) (hne : i ≠ j)
    (hb : b ∈ allocator.freeList i) (hc : covers b' i b = 1) : b' ∉ allocator.freeList j := by
  intro hb'
  have := covers_add_le_total b' hi hj hne hb hb'
  have := h.once b'
  rw [hc, covers_start] at *
  simp only [cover] at *
  omega

-- Blocks that weigh the same as before cover the same pages.
theorem Wf.of_weigh {allocator' : FrameAllocator} (h : allocator.Wf)
    (ha : ∀ i < order, ∀ block ∈ allocator'.freeList i, 2 ^ i ∣ block)
    (hw : ∀ ppn, allocator'.cover ppn ≤ allocator.cover ppn) : allocator'.Wf where
  aligned    := ha
  once ppn   := (hw ppn).trans (h.once ppn)
  bounds ppn := fun hc => h.bounds ppn (hc.trans_le (hw ppn))

-- A block is split into its halves.
theorem Wf.split {j : Nat} (h : allocator.Wf) (hj : j + 1 < order) (hb : block ∈ allocator.freeList (j + 1)) :
    let split := ((allocator.insert j (block + 2 ^ j)).insert j block).remove (j + 1) block
    split.Wf ∧ block ∈ split.freeList j ∧ ∀ weight, Splits weight → split.weigh weight = allocator.weigh weight := by
  intro split
  have hpos : 0 < 2 ^ j := Nat.two_pow_pos j
  have hlt : j < order := Nat.lt_of_succ_lt hj
  have hupper : block + 2 ^ j ∉ allocator.freeList j :=
    h.not_mem hj hlt (Nat.succ_ne_self j) hb (if_pos (by rw [Nat.pow_succ]; omega))
  have hlower : block ∉ (allocator.insert j (block + 2 ^ j)).freeList j := by
    rw [mem_insert]
    rintro (hm | ⟨-, he⟩)
    case inl => exact h.not_mem hj hlt (Nat.succ_ne_self j) hb (covers_start ..) hm
    case inr => omega
  have hmem : block ∈ ((allocator.insert j (block + 2 ^ j)).insert j block).freeList (j + 1) :=
    mem_insert.mpr (.inl (mem_insert.mpr (.inl hb)))
  have hweigh (weight) (hw : Splits weight) : split.weigh weight = allocator.weigh weight := by
    have hr : split.weigh weight + weight (j + 1) block = _ := weigh_remove weight hj hmem
    rw [weigh_insert weight hlt hlower, weigh_insert weight hlt hupper, hw.halves] at hr
    omega
  refine ⟨h.of_weigh (fun i hi b hm => ?_) fun ppn => (hweigh _ (splits_covers ppn)).le, ?_, hweigh⟩
  case refine_1 =>
    have hd : 2 ^ j ∣ block := (Nat.pow_dvd_pow 2 (Nat.le_succ j)).trans (h.aligned _ hj block hb)
    rcases mem_insert.mp (mem_of_mem_remove hm) with hm | ⟨rfl, rfl⟩
    case inl =>
      rcases mem_insert.mp hm with hm | ⟨rfl, rfl⟩
      case inl => exact h.aligned i hi b hm
      case inr => exact (Nat.dvd_add_iff_left (Nat.dvd_refl _)).mp hd
    case inr => exact hd
  case refine_2 =>
    have hne : j ≠ j + 1 := (Nat.succ_ne_self j).symm
    simp only [split, remove, Function.update_of_ne hne]
    exact mem_insert.mpr (.inr ⟨rfl, rfl⟩)

theorem Wf.splitFrom (h : allocator.Wf) (cls k : Nat) (hk : cls + k < order) (hne : allocator.freeList (cls + k) ≠ []) :
    ∃ allocator', FrameAllocator.splitFrom cls k allocator = (true, allocator') ∧ allocator'.Wf ∧
      allocator'.freeList cls ≠ [] ∧ ∀ weight, Splits weight → allocator'.weigh weight = allocator.weigh weight := by
  induction k generalizing allocator
  case zero => exact ⟨allocator, rfl, h, hne, fun _ _ => rfl⟩
  case succ k hi =>
    obtain ⟨block, blocks, hb⟩ := List.exists_cons_of_ne_nil hne
    have hb : allocator.freeList (cls + k + 1) = block :: blocks := hb
    have hmem : block ∈ allocator.freeList (cls + k + 1) := by
      rw [hb]
      exact .head blocks
    have ⟨hwf, hm, hw⟩ := h.split hk hmem
    have ⟨allocator', heq, hwf', hne', hw'⟩ := hi hwf (Nat.lt_of_succ_lt hk) (List.ne_nil_of_mem hm)
    refine ⟨allocator', ?_, hwf', hne', fun weight hs => (hw' weight hs).trans (hw weight hs)⟩
    rw [FrameAllocator.splitFrom, hb]
    exact heq

theorem Wf.allocPowerOfTwo (h : allocator.Wf) (cls : Nat) :
    (allocator.allocPowerOfTwo (2 ^ cls) = (none, allocator) ∧ ∀ i, cls ≤ i → i < order → allocator.freeList i = []) ∨
    ∃ result allocator', allocator.allocPowerOfTwo (2 ^ cls) = (some result, allocator') ∧ allocator'.Wf ∧
      cls < order ∧ 2 ^ cls ∣ result ∧
      ∀ weight, Splits weight → allocator'.weigh weight + weight cls result = allocator.weigh weight := by
  simp only [FrameAllocator.allocPowerOfTwo, Nat.log2_two_pow]
  cases hf : (List.range' cls (order - cls)).find? fun i => decide (allocator.freeList i ≠ [])
  case none =>
    refine .inl ⟨rfl, fun i hi ho => ?_⟩
    have := List.find?_eq_none.mp hf i (List.mem_range'_1.mpr (by omega))
    simpa using this
  case some i =>
    have hne : allocator.freeList i ≠ [] := by simpa using List.find?_some hf
    have hi := List.mem_range'_1.mp (List.mem_of_find?_eq_some hf)
    have he : cls + (i - cls) = i := by omega
    have ⟨allocator', heq, hwf, hne', hw⟩ := h.splitFrom cls (i - cls) (by omega) (by rwa [he])
    obtain ⟨result, results, hr⟩ := List.exists_cons_of_ne_nil hne'
    have hm : result ∈ allocator'.freeList cls := hr ▸ .head _
    have hc : cls < order := by omega
    have hweigh (weight) (hs : Splits weight) :
        (allocator'.remove cls result).weigh weight + weight cls result = allocator.weigh weight :=
      (weigh_remove weight hc hm).trans (hw weight hs)
    refine .inr ⟨result, allocator'.remove cls result, ?_, ?_, hc, hwf.aligned cls hc result hm, hweigh⟩
    case refine_1 => simp only [heq, hr]
    case refine_2 =>
      refine hwf.of_weigh (fun i hi b hb => hwf.aligned i hi b (mem_of_mem_remove hb)) fun ppn => ?_
      have := weigh_remove (covers ppn) hc hm
      simp only [weigh, cover] at *
      omega

-- A block that is free nowhere, and whose pages are within the bounds.
structure Fits (allocator : FrameAllocator) (cls block : Nat) : Prop where
  aligned : 2 ^ cls ∣ block
  once    : ∀ ppn, allocator.cover ppn + covers ppn cls block ≤ 1
  bounds  : ∀ ppn, 0 < covers ppn cls block → 0 < ppn ∧ ppn < 2 ^ order

theorem Wf.insert (h : allocator.Wf) (hf : allocator.Fits cls block) (hc : cls < order) :
    (allocator.insert cls block).Wf ∧
    ∀ weight, (allocator.insert cls block).weigh weight = allocator.weigh weight + weight cls block := by
  have hn : block ∉ allocator.freeList cls := by
    intro hm
    have : covers block cls block ≤ allocator.weigh (covers block) := le_total hc hm
    have := hf.once block
    simp only [weigh, cover, covers_start] at *
    omega
  have hw (weight) := weigh_insert weight hc hn
  refine ⟨⟨fun i hi b hb => ?_, fun ppn => (hw (covers ppn)).trans_le (hf.once ppn), fun ppn hpos => ?_⟩, hw⟩
  case refine_1 =>
    rcases mem_insert.mp hb with hb | ⟨rfl, rfl⟩
    case inl => exact h.aligned i hi b hb
    case inr => exact hf.aligned
  case refine_2 =>
    have hsum : (allocator.insert cls block).cover ppn = allocator.cover ppn + covers ppn cls block := hw (covers ppn)
    rw [hsum] at hpos
    rcases Nat.eq_zero_or_pos (allocator.cover ppn) with hz | hz
    case inl => exact hf.bounds ppn (by omega)
    case inr => exact h.bounds ppn hz

-- A block of the class after the last one would begin with page 0.
theorem Fits.lt_order (hf : allocator.Fits order block) : False := by
  obtain ⟨hpos, hlt⟩ := hf.bounds block (by rw [covers_start]; exact Nat.one_pos)
  exact Nat.not_le_of_lt hlt (Nat.le_of_dvd hpos hf.aligned)

theorem Wf.mergeFrom {classes : Nat} (h : allocator.Wf) (hf : allocator.Fits cls block) (hc : cls + classes = order) :
    (FrameAllocator.mergeFrom classes allocator block cls).Wf ∧ ∀ weight, Splits weight →
      (FrameAllocator.mergeFrom classes allocator block cls).weigh weight =
        allocator.weigh weight + weight cls block := by
  induction classes generalizing allocator block cls
  case zero =>
    subst hc
    exact hf.lt_order.elim
  case succ classes hi =>
    have hlt : cls < order := by omega
    rw [FrameAllocator.mergeFrom]
    split
    case isTrue hm =>
      have hm : buddy cls block ∈ allocator.freeList cls := hm
      have hj := joins hf.aligned
      have hremove (weight) := weigh_remove weight hlt hm
      have hcover (ppn) : (allocator.remove cls (buddy cls block)).cover ppn + covers ppn cls (buddy cls block) =
          allocator.cover ppn := hremove (covers ppn)
      have hwf : (allocator.remove cls (buddy cls block)).Wf :=
        h.of_weigh (fun i hi b hb => h.aligned i hi b (mem_of_mem_remove hb)) fun ppn => Nat.le.intro (hcover ppn)
      have hfits : (allocator.remove cls (buddy cls block)).Fits (cls + 1) (min block (buddy cls block)) := {
        aligned := hj.aligned
        once ppn := by
          have := hcover ppn
          have := hf.once ppn
          rw [hj.weight _ (splits_covers ppn)]
          omega
        bounds ppn hpos := by
          rw [hj.weight _ (splits_covers ppn)] at hpos
          rcases Nat.eq_zero_or_pos (covers ppn cls block) with hz | hz
          case inl =>
            have := hcover ppn
            exact h.bounds ppn (by omega)
          case inr => exact hf.bounds ppn hz
      }
      have ⟨hwf', hw⟩ := hi hwf hfits (by omega)
      refine ⟨hwf', fun weight hs => (hw weight hs).trans ?_⟩
      have := hremove weight
      rw [hj.weight weight hs]
      omega
    case isFalse =>
      have ⟨hwf, hw⟩ := h.insert hf hlt
      exact ⟨hwf, fun weight _ => hw weight⟩

-- The size of the next block of a range that is added.
theorem addFrame_size {currentStart stop : Nat} (hpos : 0 < currentStart) (hlt : currentStart < stop)
    (hs : stop < 2 ^ 64) :
    ∃ cls, min (min (lowbit currentStart) (prevPowerOfTwo (stop - currentStart))) (2 ^ (order - 1)) = 2 ^ cls ∧
      cls < order ∧ 2 ^ cls ∣ currentStart ∧ currentStart + 2 ^ cls ≤ stop := by
  obtain ⟨k, hk, hd⟩ := lowbit_dvd hpos (hlt.trans hs)
  have hprev : prevPowerOfTwo (stop - currentStart) ≤ stop - currentStart := Nat.log2_self_le (by omega)
  have hmin (a b : Nat) : min (2 ^ a) (2 ^ b) = 2 ^ min a b :=
    (pow_right_mono₀ one_le_two).map_min.symm
  rw [hk, prevPowerOfTwo, hmin, hmin]
  refine ⟨_, rfl, ?_, (Nat.pow_dvd_pow 2 (by omega)).trans hd, ?_⟩
  case refine_1 =>
    simp only [order]
    omega
  case refine_2 =>
    have hle : 2 ^ min (min k (stop - currentStart).log2) (order - 1) ≤ 2 ^ (stop - currentStart).log2 :=
      Nat.pow_le_pow_right Nat.two_pos (by omega)
    simp only [prevPowerOfTwo] at hprev
    omega

theorem Wf.addFrameFrom (h : allocator.Wf) (pages : Nat) {currentStart stop : Nat} (hpos : 0 < currentStart)
    (hs : stop ≤ 2 ^ order) (hp : stop ≤ currentStart + pages)
    (hn : ∀ ppn, currentStart ≤ ppn → ppn < stop → allocator.cover ppn = 0) :
    (FrameAllocator.addFrameFrom pages allocator currentStart stop).Wf ∧ ∀ weight, Splits weight →
      (FrameAllocator.addFrameFrom pages allocator currentStart stop).weigh weight =
        allocator.weigh weight + span weight currentStart (stop - currentStart) := by
  induction pages generalizing allocator currentStart
  case zero =>
    rw [FrameAllocator.addFrameFrom, show stop - currentStart = 0 by omega]
    exact ⟨h, fun weight _ => by simp [span]⟩
  case succ pages hi =>
    rw [FrameAllocator.addFrameFrom]
    split
    case isTrue hlt =>
      obtain ⟨cls, hsize, hc, hd, hle⟩ := addFrame_size hpos hlt (hs.trans_lt (by decide))
      simp only [hsize, Nat.log2_two_pow]
      have hfits : allocator.Fits cls currentStart := {
        aligned := hd
        once ppn := by
          have := h.once ppn
          have := hn ppn
          simp only [covers]
          split_ifs <;> omega
        bounds ppn hc := by
          simp only [covers] at hc
          split at hc <;> omega
      }
      obtain ⟨hwf, hw⟩ := h.insert hfits hc
      have hcover (ppn) : (allocator.insert cls currentStart).cover ppn =
          allocator.cover ppn + covers ppn cls currentStart := hw (covers ppn)
      have hpow := Nat.two_pow_pos cls
      have hrest (ppn) (hle : currentStart + 2 ^ cls ≤ ppn) (hlt : ppn < stop) :
          (allocator.insert cls currentStart).cover ppn = 0 := by
        rw [hcover, hn ppn (by omega) hlt, covers, if_neg (by omega)]
      obtain ⟨hwf', hw'⟩ := hi hwf (by omega) (by omega) hrest
      refine ⟨hwf', fun weight hspl => ?_⟩
      have hsub : stop - currentStart = 2 ^ cls + (stop - (currentStart + 2 ^ cls)) := by omega
      rw [hw' weight hspl, hw weight, hsub, span_add, hspl.span_eq, Nat.add_assoc]
    case isFalse =>
      rw [show stop - currentStart = 0 by omega]
      exact ⟨h, fun weight _ => by simp [span]⟩

end FrameAllocator

end WllOs
