import WllOs.Mm.BuddyHeap
import WllOs.Mm.Theorems.BuddyFrames

namespace WllOs

namespace Layout

variable {layout : Layout}

theorem max_two_pow (a b : Nat) : max (2 ^ a) (2 ^ b) = 2 ^ max a b :=
  (pow_right_mono₀ one_le_two).map_max.symm

theorem blockSize_eq (layout : Layout) : layout.blockSize = 2 ^ layout.shift := by
  obtain ⟨k, hk⟩ := nextPowerOfTwo_eq layout.size
  have h : layout.blockSize = 2 ^ max (max k layout.alignShift) 3 := by
    rw [blockSize, hk, align, max_two_pow, ← max_two_pow _ 3]
    rfl
  rw [shift, h, Nat.log2_two_pow]

theorem size_le (layout : Layout) : layout.size ≤ layout.blockSize :=
  (le_nextPowerOfTwo layout.size).trans ((Nat.le_max_left ..).trans (Nat.le_max_left ..))

theorem align_dvd (layout : Layout) : layout.align ∣ layout.blockSize := by
  have hle : layout.align ≤ layout.blockSize := (Nat.le_max_right ..).trans (Nat.le_max_left ..)
  rw [blockSize_eq, align] at hle ⊢
  exact Nat.pow_dvd_pow 2 ((Nat.pow_le_pow_iff_right Nat.one_lt_two).mp hle)

end Layout

namespace Heap

open BuddyBlocks

variable {heap heap' : Heap} {cls k ptr : Nat} {weight : Nat → Nat → Nat} {rest : List Nat} {layout : Layout}

def blocks (heap : Heap) : Multiset (Nat × Nat) :=
  freeBlocks order heap.freeList

theorem cover_eq (heap : Heap) (addr : Nat) : weigh (covers addr) heap.blocks = heap.cover addr :=
  weigh_freeBlocks ..

theorem push_blocks (heap : Heap) (block : Nat) (hc : cls < order) :
    (heap.push cls block).blocks = (cls, block) ::ₘ heap.blocks :=
  freeBlocks_insert hc (.refl _)

theorem remove_blocks (hc : cls < order) (hm : ptr ∈ heap.freeList cls) :
    (cls, ptr) ::ₘ (heap.remove cls ptr).blocks = heap.blocks :=
  freeBlocks_remove hc (List.perm_cons_erase hm)

theorem pop_blocks (hc : cls < order) (hf : heap.freeList cls = ptr :: rest) :
    (heap.pop cls).1 = some ptr ∧ (cls, ptr) ::ₘ (heap.pop cls).2.blocks = heap.blocks := by
  simp only [pop, hf, true_and]
  exact freeBlocks_remove hc (by rw [hf])

theorem push_head (heap : Heap) (cls block : Nat) : ∃ rest, (heap.push cls block).freeList cls = block :: rest :=
  ⟨heap.freeList cls, Function.update_self ..⟩

-- A heap whose blocks are apart is changed into one whose blocks weigh the same.
structure Keeps (heap heap' : Heap) : Prop where
  apart : Apart heap'.blocks
  weigh : ∀ weight, Splits weight → weigh weight heap'.blocks = weigh weight heap.blocks

theorem splitFrom_keeps (cls k : Nat) (h : Apart heap.blocks) (hk : cls + k < order)
    (hne : heap.freeList (cls + k) ≠ []) :
    ∃ heap', splitFrom cls k heap = (true, heap') ∧ heap.Keeps heap' ∧ heap'.freeList cls ≠ [] := by
  induction k generalizing heap
  case zero => exact ⟨heap, rfl, ⟨h, fun _ _ => rfl⟩, hne⟩
  case succ k hi =>
    obtain ⟨block, blocks, hf⟩ := List.exists_cons_of_ne_nil hne
    rw [← Nat.add_assoc] at hf hk
    obtain ⟨hpop, hblocks⟩ := pop_blocks hk hf
    rcases hp : heap.pop (cls + k + 1) with ⟨result, popped⟩
    rw [hp] at hpop hblocks
    obtain rfl : result = some block := hpop
    have hlt : cls + k < order := Nat.lt_of_succ_lt hk
    have hsplit : ((popped.push (cls + k) (block + 2 ^ (cls + k))).push (cls + k) block).blocks =
        (cls + k, block) ::ₘ (cls + k, block + 2 ^ (cls + k)) ::ₘ popped.blocks := by
      rw [push_blocks _ _ hlt, push_blocks _ _ hlt]
    obtain ⟨rest, hrest⟩ := push_head (popped.push (cls + k) (block + 2 ^ (cls + k))) (cls + k) block
    have hapart : Apart ((popped.push (cls + k) (block + 2 ^ (cls + k))).push (cls + k) block).blocks := by
      rw [hsplit]
      exact (hblocks ▸ h).split
    obtain ⟨heap', heq, hkeeps, hne'⟩ := hi hapart hlt (by rw [hrest]; exact List.cons_ne_nil _ _)
    refine ⟨heap', ?_, ⟨hkeeps.apart, fun weight hw => ?_⟩, hne'⟩
    case refine_1 =>
      rw [splitFrom, hp]
      exact heq
    case refine_2 => rw [hkeeps.weigh weight hw, hsplit, hw.weigh_split, hblocks]

-- An allocation takes a block out of the free lists.
structure Gives (heap heap' : Heap) (cls : Nat) (ptrs : List Nat) : Prop where
  apart : Apart ((ptrs.map (cls, ·) : Multiset (Nat × Nat)) + heap'.blocks)
  weigh : ∀ weight, Splits weight →
            weigh weight ((ptrs.map (cls, ·) : Multiset (Nat × Nat)) + heap'.blocks) = weigh weight heap.blocks

theorem alloc_cases (h : Apart heap.blocks) (layout : Layout) :
    heap.alloc layout = (none, heap) ∨
    ∃ ptr heap', heap.alloc layout = (some ptr, heap') ∧ layout.shift < order ∧
      heap.Gives heap' layout.shift [ptr] := by
  simp only [alloc]
  cases hf : (List.range' layout.shift (order - layout.shift)).find? fun i => decide (heap.freeList i ≠ [])
  case none => exact .inl rfl
  case some i =>
    have hne : heap.freeList i ≠ [] := by simpa using List.find?_some hf
    have hi := List.mem_range'_1.mp (List.mem_of_find?_eq_some hf)
    have he : layout.shift + (i - layout.shift) = i := by omega
    have hc : layout.shift < order := by omega
    obtain ⟨split, heq, hkeeps, hne'⟩ := splitFrom_keeps layout.shift (i - layout.shift) h (by omega) (by rwa [he])
    obtain ⟨ptr, ptrs, hr⟩ := List.exists_cons_of_ne_nil hne'
    obtain ⟨hpop, hblocks⟩ := pop_blocks hc hr
    refine .inr ⟨ptr, (split.pop layout.shift).2, ?_, hc, ?_⟩
    case refine_1 =>
      simp only [heq]
      rw [← hpop]
    case refine_2 =>
      have hrun : (([ptr].map (layout.shift, ·) : Multiset (Nat × Nat)) + (split.pop layout.shift).2.blocks) =
          split.blocks := by
        rw [← hblocks]
        rfl
      exact ⟨hrun ▸ hkeeps.apart, fun weight hw => hrun ▸ hkeeps.weigh weight hw⟩

theorem mergeFrom_keeps (classes : Nat) (h : Apart heap.blocks) (hc : cls + classes + 1 = order)
    (hf : heap.freeList cls = ptr :: rest) : heap.Keeps (mergeFrom classes heap ptr cls) := by
  induction classes generalizing heap cls ptr rest
  case zero => exact ⟨h, fun _ _ => rfl⟩
  case succ classes hi =>
    have hlt : cls < order := by omega
    rw [mergeFrom]
    split
    case isTrue hm =>
      have hm : buddy cls ptr ∈ heap.freeList cls := hm
      have hremoved : (heap.remove cls (buddy cls ptr)).freeList cls = ptr :: rest.erase (buddy cls ptr) := by
        simp only [remove, Function.update_self, hf]
        rw [List.erase_cons_tail (by simpa using (buddy_ne cls ptr).symm)]
      obtain ⟨-, hpop⟩ := pop_blocks hlt hremoved
      have hboth : (cls, ptr) ::ₘ (cls, buddy cls ptr) ::ₘ ((heap.remove cls (buddy cls ptr)).pop cls).2.blocks =
          heap.blocks := by
        rw [Multiset.cons_swap, hpop]
        exact remove_blocks hlt hm
      have hnext : cls + 1 < order := by omega
      have hpush := push_blocks ((heap.remove cls (buddy cls ptr)).pop cls).2 (min ptr (buddy cls ptr)) hnext
      have hd : 2 ^ cls ∣ ptr := h.aligned (cls, ptr) (by rw [← hboth]; exact Multiset.mem_cons_self ..)
      obtain ⟨rest', hrest⟩ :=
        push_head ((heap.remove cls (buddy cls ptr)).pop cls).2 (cls + 1) (min ptr (buddy cls ptr))
      have hapart : Apart (((heap.remove cls (buddy cls ptr)).pop cls).2.push (cls + 1)
          (min ptr (buddy cls ptr))).blocks := by
        rw [hpush]
        exact (hboth ▸ h).join
      have hkeeps := hi hapart (by omega) hrest
      refine ⟨hkeeps.apart, fun weight hw => (hkeeps.weigh weight hw).trans ?_⟩
      rw [hpush, hw.weigh_join hd, hboth]
    case isFalse => exact ⟨h, fun _ _ => rfl⟩

-- A release puts blocks into the free lists.
structure Takes (heap heap' : Heap) (cls : Nat) (ptrs : List Nat) : Prop where
  apart : Apart heap'.blocks
  weigh : ∀ weight, Splits weight →
            weigh weight heap'.blocks = weigh weight ((ptrs.map (cls, ·) : Multiset (Nat × Nat)) + heap.blocks)

-- The first item of a block lies in it.
theorem weigh_pos {ptrs : List Nat} (hp : ptr ∈ ptrs) (cls : Nat) (blocks : Multiset (Nat × Nat)) :
    0 < weigh (covers ptr) ((ptrs.map (cls, ·) : Multiset (Nat × Nat)) + blocks) := by
  have hm : (cls, ptr) ∈ (ptrs.map (cls, ·) : Multiset (Nat × Nat)) := Multiset.mem_coe.mpr (List.mem_map_of_mem hp)
  have hle := le_weigh (covers ptr) (Multiset.mem_add.mpr (.inl hm) : (cls, ptr) ∈ _ + blocks)
  rwa [covers_start] at hle

theorem Gives.cover_pos {ptrs : List Nat} (h : heap.Gives heap' cls ptrs) (hp : ptr ∈ ptrs) : 0 < heap.cover ptr := by
  rw [← cover_eq, ← h.weigh _ (splits_covers ptr)]
  exact weigh_pos hp ..

theorem Takes.cover_pos {ptrs : List Nat} (h : heap.Takes heap' cls ptrs) (hp : ptr ∈ ptrs) : 0 < heap'.cover ptr := by
  rw [← cover_eq, h.weigh _ (splits_covers ptr)]
  exact weigh_pos hp ..

theorem dealloc_keeps (h : Apart ((layout.shift, ptr) ::ₘ heap.blocks)) (hc : layout.shift < order) :
    (heap.push layout.shift ptr).Keeps (heap.dealloc ptr layout) := by
  obtain ⟨rest, hrest⟩ := push_head heap layout.shift ptr
  refine mergeFrom_keeps _ ?_ (by simp only [order] at *; omega) hrest
  rw [push_blocks _ _ hc]
  exact h

theorem dealloc_all (ptrs : List Nat) (h : Apart ((ptrs.map (layout.shift, ·) : Multiset (Nat × Nat)) + heap.blocks))
    (hc : layout.shift < order) :
    heap.Takes (ptrs.foldl (fun heap ptr => heap.dealloc ptr layout) heap) layout.shift ptrs := by
  induction ptrs generalizing heap
  case nil => exact ⟨h.of_le (Multiset.le_add_left ..), fun weight _ => by simp⟩
  case cons ptr ptrs hi =>
    have hcons : (((ptr :: ptrs).map (layout.shift, ·) : Multiset (Nat × Nat)) + heap.blocks) =
        (ptrs.map (layout.shift, ·) : Multiset (Nat × Nat)) + (heap.push layout.shift ptr).blocks := by
      rw [push_blocks _ _ hc, List.map_cons, ← Multiset.cons_coe, Multiset.cons_add, Multiset.add_cons]
    have hfits : Apart ((layout.shift, ptr) ::ₘ heap.blocks) := by
      rw [← push_blocks _ _ hc]
      exact (hcons ▸ h).of_le (Multiset.le_add_left ..)
    have hfirst := dealloc_keeps hfits hc
    have hweigh (weight) (hw : Splits weight) :
        weigh weight ((ptrs.map (layout.shift, ·) : Multiset (Nat × Nat)) + (heap.dealloc ptr layout).blocks) =
          weigh weight (((ptr :: ptrs).map (layout.shift, ·) : Multiset (Nat × Nat)) + heap.blocks) := by
      rw [hcons, weigh_add, weigh_add, hfirst.weigh weight hw]
    have hapart : Apart ((ptrs.map (layout.shift, ·) : Multiset (Nat × Nat)) + (heap.dealloc ptr layout).blocks) := {
      aligned block hb := by
        rcases Multiset.mem_add.mp hb with hb | hb
        case inl => exact h.aligned block (by rw [hcons]; exact Multiset.mem_add.mpr (.inl hb))
        case inr => exact hfirst.apart.aligned block hb
      once item := by
        rw [hweigh _ (splits_covers item)]
        exact h.once item
    }
    have hrest := hi hapart
    exact ⟨hrest.apart, fun weight hw => (hrest.weigh weight hw).trans (hweigh weight hw)⟩

-- The sizes of the blocks of a range of words are whole words.
theorem addToHeap_size {currentStart stop : Nat} (hpos : 0 < currentStart) (hle : currentStart + 8 ≤ stop)
    (hs : stop < 2 ^ 64) (hd : 8 ∣ currentStart) :
    ∃ cls, min (min (lowbit currentStart) (prevPowerOfTwo (stop - currentStart))) (2 ^ (order - 1)) = 2 ^ cls ∧
      cls < order ∧ 2 ^ cls ∣ currentStart ∧ currentStart + 2 ^ cls ≤ stop ∧ 8 ∣ 2 ^ cls := by
  obtain ⟨cls, hsize, hc, hdvd, hstop⟩ := FrameAllocator.addFrame_size hpos (by omega) hs
  refine ⟨cls, hsize, hc, hdvd, hstop, ?_⟩
  have hlow : 8 ∣ lowbit currentStart := dvd_lowbit hpos (by omega) hd
  have hprev : 8 ∣ prevPowerOfTwo (stop - currentStart) := by
    have hlog : 3 ≤ Nat.log2 (stop - currentStart) := (Nat.le_log2 (by omega)).mpr (by omega)
    exact Nat.pow_dvd_pow 2 hlog
  have hmin {a b : Nat} (ha : 8 ∣ a) (hb : 8 ∣ b) : 8 ∣ min a b := by
    rcases min_choice a b with h | h <;> rwa [h]
  rw [← hsize]
  exact hmin (hmin hlow hprev) (by decide)

theorem addToHeapFrom_spec (bytes : Nat) {currentStart stop : Nat} (h : Apart heap.blocks) (hpos : 0 < currentStart)
    (hs : stop < 2 ^ 64) (hb : stop ≤ currentStart + bytes) (hd : 8 ∣ currentStart) (hd' : 8 ∣ stop)
    (hn : ∀ addr, currentStart ≤ addr → addr < stop → heap.cover addr = 0) :
    Apart (addToHeapFrom bytes heap currentStart stop).blocks ∧ ∀ weight, Splits weight →
      weigh weight (addToHeapFrom bytes heap currentStart stop).blocks =
        weigh weight heap.blocks + span weight currentStart (stop - currentStart) := by
  induction bytes generalizing heap currentStart
  case zero =>
    rw [addToHeapFrom, show stop - currentStart = 0 by omega]
    exact ⟨h, fun weight _ => by simp [span]⟩
  case succ bytes hi =>
    rw [addToHeapFrom]
    split
    case isTrue hle =>
      obtain ⟨cls, hsize, hc, hdvd, hstop, hwords⟩ := addToHeap_size hpos hle hs hd
      simp only [hsize, Nat.log2_two_pow]
      have hblocks := push_blocks heap currentStart hc
      have hcover (addr) :
          (heap.push cls currentStart).cover addr = covers addr cls currentStart + heap.cover addr := by
        rw [← cover_eq, ← cover_eq, hblocks, weigh_cons]
      have hapart : Apart (heap.push cls currentStart).blocks := by
        refine ⟨fun block hm => ?_, fun addr => ?_⟩
        case refine_1 =>
          rw [hblocks] at hm
          rcases Multiset.mem_cons.mp hm with rfl | hm
          case inl => exact hdvd
          case inr => exact h.aligned block hm
        case refine_2 =>
          have honce := h.once addr
          have hfresh := hn addr
          rw [cover_eq] at honce ⊢
          rw [hcover, covers]
          split <;> omega
      have hpow := Nat.two_pow_pos cls
      have hrest (addr) (hge : currentStart + 2 ^ cls ≤ addr) (hlt : addr < stop) :
          (heap.push cls currentStart).cover addr = 0 := by
        rw [hcover, hn addr (by omega) hlt, covers, if_neg (by omega)]
      obtain ⟨hapart', hw⟩ := hi hapart (by omega) (by omega) (Nat.dvd_add hd hwords) hrest
      refine ⟨hapart', fun weight hspl => ?_⟩
      have hsub : stop - currentStart = 2 ^ cls + (stop - (currentStart + 2 ^ cls)) := by omega
      have hhead : weigh weight (heap.push cls currentStart).blocks =
        weight cls currentStart + weigh weight heap.blocks := by rw [hblocks, weigh_cons]
      rw [hw weight hspl, hhead, hsub, span_add, hspl.span_eq]
      omega
    case isFalse =>
      rw [show stop - currentStart = 0 by omega]
      exact ⟨h, fun weight _ => by simp [span]⟩

end Heap

end WllOs
