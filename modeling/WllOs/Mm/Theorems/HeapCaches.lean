import WllOs.Mm.HeapCaches
import WllOs.Mm.Theorems.BuddyHeap

namespace WllOs

open BuddyBlocks

section

variable {layout : Layout} {cls : SmallClass}

theorem classLayout_shift (cls : SmallClass) : (classLayout cls).shift = cls.val + MIN_CACHE_SHIFT := by
  have hsize : nextPowerOfTwo (2 ^ (cls.val + MIN_CACHE_SHIFT)) = 2 ^ (cls.val + MIN_CACHE_SHIFT) :=
    nextPowerOfTwo_two_pow _
  have h : (classLayout cls).blockSize = 2 ^ max (cls.val + MIN_CACHE_SHIFT) 3 := by
    rw [← Layout.max_two_pow, Layout.blockSize, classLayout, hsize, Layout.align, Nat.max_self]
    rfl
  rw [Layout.shift, h, Nat.log2_two_pow]
  exact Nat.max_eq_left (Nat.le_add_left 3 cls.val)

theorem three_le_shift (layout : Layout) : 3 ≤ layout.shift := by
  have h : 2 ^ 3 ≤ 2 ^ layout.shift := by
    rw [← Layout.blockSize_eq]
    exact Nat.le_max_right ..
  exact (Nat.pow_le_pow_iff_right Nat.one_lt_two).mp h

theorem shift_of_cacheClass (h : cacheClass layout = some cls) : layout.shift = cls.val + MIN_CACHE_SHIFT := by
  rw [cacheClass] at h
  split at h
  case isTrue hle =>
    cases h
    exact (Nat.sub_add_cancel (three_le_shift layout)).symm
  case isFalse => cases h

theorem central_of_some (h : cacheClass layout = some cls) : layout.central = classLayout cls := by
  rw [Layout.central, h]
  rfl

theorem central_of_none (h : cacheClass layout = none) : layout.central = layout := by
  rw [Layout.central, h]
  rfl

-- The class of a layout has blocks of the size that the layout needs.
theorem shift_central (layout : Layout) : layout.central.shift = layout.shift := by
  cases h : cacheClass layout
  case none     => rw [central_of_none h]
  case some cls => rw [central_of_some h, classLayout_shift, shift_of_cacheClass h]

end

namespace Heap

variable {heap : Heap} {layout : Layout}

theorem allocBatch_gives (layout : Layout) (len : Nat) (h : Apart heap.blocks) :
    heap.Gives (allocBatch layout len heap).2 layout.shift (allocBatch layout len heap).1 ∧
    ((allocBatch layout len heap).1 ≠ [] → layout.shift < order) := by
  induction len generalizing heap
  case zero => exact ⟨⟨by simpa [allocBatch] using h, fun weight _ => by simp [allocBatch]⟩, fun hne => absurd rfl hne⟩
  case succ len hi =>
    rcases alloc_cases h layout with hnone | ⟨ptr, heap', hsome, hc, hgives⟩
    case inl =>
      have hbatch : allocBatch layout (len + 1) heap = ([], heap) := by
        rw [allocBatch, hnone]
      rw [hbatch]
      exact ⟨⟨by simpa using h, fun weight _ => by simp⟩, fun hne => absurd rfl hne⟩
    case inr =>
      have hbatch : allocBatch layout (len + 1) heap =
          (ptr :: (allocBatch layout len heap').1, (allocBatch layout len heap').2) := by
        rw [allocBatch, hsome]
      obtain ⟨hrest, -⟩ := hi (hgives.apart.of_le (Multiset.le_add_left ..))
      have hweigh (weight) (hw : Splits weight) :
          weigh weight (((ptr :: (allocBatch layout len heap').1).map (layout.shift, ·) : Multiset (Nat × Nat)) +
            (allocBatch layout len heap').2.blocks) = weigh weight heap.blocks := by
        rw [← hgives.weigh weight hw, weigh_add _ _ heap'.blocks, ← hrest.weigh weight hw, ← weigh_add, ← add_assoc]
        rfl
      rw [hbatch]
      refine ⟨⟨⟨fun block hb => ?_, fun item => ?_⟩, hweigh⟩, fun _ => hc⟩
      case refine_1 =>
        rw [List.map_cons, ← Multiset.cons_coe, Multiset.cons_add, Multiset.mem_cons] at hb
        rcases hb with rfl | hb
        case inl => exact hgives.apart.aligned _ (by simp)
        case inr => exact hrest.apart.aligned block hb
      case refine_2 =>
        rw [hweigh _ (splits_covers item)]
        exact h.once item

theorem allocBatch_length (layout : Layout) (len : Nat) (heap : Heap) :
    (allocBatch layout len heap).1.length ≤ len := by
  induction len generalizing heap
  case zero => exact Nat.le_refl 0
  case succ len hi =>
    rw [allocBatch]
    split
    case h_1 => exact Nat.zero_le _
    case h_2 heap' _ => exact Nat.succ_le_succ (hi heap')

-- A batch is empty only if the heap has no block.
theorem allocBatch_nil {len : Nat} (hl : 0 < len) (hb : (allocBatch layout len heap).1 = []) (h : Apart heap.blocks) :
    (allocBatch layout len heap).2 = heap ∧ (heap.alloc layout).1 = none := by
  obtain ⟨n, rfl⟩ := Nat.exists_eq_add_of_lt hl
  rcases alloc_cases h layout with hnone | ⟨ptr, heap', hsome, -⟩
  case inl =>
    have hbatch : allocBatch layout (0 + n + 1) heap = ([], heap) := by
      rw [allocBatch, hnone]
    exact ⟨by rw [hbatch], by rw [hnone]⟩
  case inr =>
    rw [allocBatch, hsome] at hb
    cases hb

end Heap

namespace HeapState

variable {τ : Type} [DecidableEq τ] {cpus : Nat} {state state' : HeapState τ cpus} {thread : τ} {layout : Layout}
variable {place place' : HeapPlace τ cpus} {ptrs rest : List Nat} {hand held : Multiset (Nat × Layout)} {heap : Heap}

section

variable {addr ptr : Nat} {block : Nat × Layout}

@[simp]
theorem heldCover_add (addr : Nat) (held held' : Multiset (Nat × Layout)) :
    heldCover addr (held + held') = heldCover addr held + heldCover addr held' := by
  simp [heldCover]

theorem heldCover_withLayout (addr : Nat) (layout : Layout) (ptrs : List Nat) :
    heldCover addr (withLayout layout ptrs) =
      weigh (covers addr) (ptrs.map (layout.shift, ·) : Multiset (Nat × Nat)) := by
  simp [heldCover, weigh, withLayout, Function.comp_def]

theorem heldCover_pos (h : block ∈ held) (hge : block.1 ≤ addr) (hlt : addr < block.1 + block.2.blockSize) :
    0 < heldCover addr held := by
  obtain ⟨rest, rfl⟩ := Multiset.exists_cons_of_mem h
  rw [Layout.blockSize_eq] at hlt
  have hcovers : covers addr block.2.shift block.1 = 1 := if_pos ⟨hge, hlt⟩
  simp only [heldCover, Multiset.map_cons, Multiset.sum_cons, hcovers]
  omega

theorem heldCover_start (h : block ∈ held) : 0 < heldCover block.1 held := by
  refine heldCover_pos h (Nat.le_refl _) (Nat.lt_add_of_pos_right ?_)
  rw [Layout.blockSize_eq]
  exact Nat.two_pow_pos _

@[simp]
theorem mem_withLayout {layout' : Layout} :
    (ptr, layout') ∈ withLayout layout ptrs ↔ ptr ∈ ptrs ∧ layout' = layout := by
  simp [withLayout, eq_comm]

theorem withLayout_perm (h : ptrs.Perm rest) : withLayout layout ptrs = withLayout layout rest :=
  Multiset.coe_eq_coe.mpr (h.map _)

theorem withLayout_append (layout : Layout) (ptrs rest : List Nat) :
    withLayout layout (ptrs ++ rest) = withLayout layout ptrs + withLayout layout rest := by
  simp [withLayout]

end

-- Addresses are at one place each, and blocks are aligned to their sizes.
structure Blocks (state : HeapState τ cpus) : Prop where
  wf       : Apart state.central.blocks
  placed   : Placement.Placed (IsManaged state.regions) state.placement
  fit      : ∀ place, ∀ block ∈ state.held place, 2 ^ block.2.shift ∣ block.1 ∧ block.2.shift < Heap.order
  capacity : ∀ cpu cls, ((state.caches cpu).blocks cls).length ≤ CACHE_CAPACITY

omit [DecidableEq τ] in
theorem placement_of_ne (addr : Nat) (h : place ≠ .central) :
    state.placement addr place = heldCover addr (state.held place) := by
  cases place
  case central => exact absurd rfl h
  all_goals rfl

omit [DecidableEq τ] in
-- A block is at no place if the central allocator has its first byte.
theorem Blocks.not_held (h : state.Blocks) {ptr : Nat} (hpos : 0 < state.central.cover ptr) (place : HeapPlace τ cpus)
    (layout : Layout) : (ptr, layout) ∉ state.held place := by
  intro hm
  have hne : place ≠ .central := by
    rintro rfl
    exact Multiset.notMem_zero _ hm
  have hheld : 0 < state.placement ptr place := by
    rw [placement_of_ne ptr hne]
    exact heldCover_start hm
  have hcentral : 0 < state.placement ptr .central := hpos
  exact Nat.ne_of_gt hheld (h.placed.eq_zero hcentral hne)

-- A step of a thread that moves blocks between two places that hold them.
structure Passes (place place' : HeapPlace τ cpus) (state state' : HeapState τ cpus) : Prop where
  central  : state'.central = state.central
  regions  : state'.regions = state.regions
  capacity : ∀ cpu cls, ((state'.caches cpu).blocks cls).length ≤ CACHE_CAPACITY
  ne       : place ≠ place'
  source   : place ≠ .central
  target   : place' ≠ .central
  moved    : state'.held place + state'.held place' = state.held place + state.held place'
  others   : ∀ p, p ≠ place → p ≠ place' → state'.held p = state.held p

omit [DecidableEq τ] in
theorem Passes.held_iff (h : Passes place place' state state') (block : Nat × Layout) :
    (∃ p, block ∈ state'.held p) ↔ ∃ p, block ∈ state.held p := by
  have hsplit (state : HeapState τ cpus) : (∃ p, block ∈ state.held p) ↔
      (block ∈ state.held place ∨ block ∈ state.held place') ∨
        ∃ p, p ≠ place ∧ p ≠ place' ∧ block ∈ state.held p := by
    grind
  rw [hsplit, hsplit, ← Multiset.mem_add, ← Multiset.mem_add, h.moved]
  exact or_congr_right (exists_congr fun p => and_congr_right fun hp => and_congr_right fun hp' => by
    rw [h.others p hp hp'])

omit [DecidableEq τ] in
theorem Blocks.pass (h : state.Blocks) (hp : Passes place place' state state') : state'.Blocks where
  wf       := hp.central ▸ h.wf
  capacity := hp.capacity
  fit p block hb := by
    obtain ⟨q, hq⟩ := (hp.held_iff block).mp ⟨p, hb⟩
    exact h.fit q block hq
  placed := by
    rw [hp.regions]
    refine h.placed.move hp.ne (fun addr => ?_) fun addr p hne hne' => ?_
    case refine_1 =>
      simp only [placement_of_ne addr hp.source, placement_of_ne addr hp.target]
      rw [← heldCover_add, ← heldCover_add, hp.moved]
    case refine_2 =>
      by_cases hc : p = .central
      case pos => rw [hc]; exact congrArg (Heap.cover · addr) hp.central
      case neg => rw [placement_of_ne addr hc, placement_of_ne addr hc, hp.others p hne hne']

theorem exchange_hands {put take : List Nat} (h : state.hands thread = withLayout layout put + hand) :
    (state.exchange thread layout put take).hands thread = hand + withLayout layout take := by
  show Function.update _ thread _ thread = _
  rw [Function.update_self, h, add_tsub_cancel_left]

theorem exchange_hands_ne (layout : Layout) (put take : List Nat) {t : τ} (h : t ≠ thread) :
    (state.exchange thread layout put take).hands t = state.hands t :=
  Function.update_of_ne h ..

-- A thread exchanges blocks with the cache of a processor.
theorem Blocks.exchange_passes (h : state.Blocks) (thread : τ) (cpu : Fin cpus) (cls : SmallClass)
    {blocks put take held : List Nat} (hh : state.hands thread = withLayout (classLayout cls) held)
    (hput : held.Perm (put ++ rest))
    (hperm : (take ++ blocks).Perm (put ++ (state.caches cpu).blocks cls)) (hcap : blocks.length ≤ CACHE_CAPACITY) :
    let state' := (state.setCache cpu ((state.caches cpu).set cls blocks)).exchange thread (classLayout cls) put take
    Passes (.hand thread) (.cache cpu cls) state state' ∧
      state'.hands thread = withLayout (classLayout cls) (rest ++ take) := by
  intro state'
  have hhand : state'.hands thread = withLayout (classLayout cls) (rest ++ take) := by
    rw [withLayout_append]
    exact exchange_hands (by rw [← withLayout_append, ← withLayout_perm hput]; exact hh)
  have hcache (c : Fin cpus) (k : SmallClass) (hne : (c, k) ≠ (cpu, cls)) :
      (state'.caches c).blocks k = (state.caches c).blocks k := by
    by_cases hc : c = cpu
    case pos =>
      subst hc
      have hk : k ≠ cls := fun he => hne (by rw [he])
      simp [state', exchange, setCache, SmallCache.set, hk]
    case neg => simp [state', exchange, setCache, hc]
  have hself : (state'.caches cpu).blocks cls = blocks := by simp [state', exchange, setCache, SmallCache.set]
  refine ⟨⟨rfl, rfl, fun c k => ?_, (by simp), (by simp), (by simp), ?_,
    fun p hp hp' => ?_⟩, hhand⟩
  case refine_1 =>
    by_cases hc : (c, k) = (cpu, cls)
    case pos =>
      obtain ⟨rfl, rfl⟩ := Prod.mk.inj hc
      exact hself.symm ▸ hcap
    case neg => exact (hcache c k hc).symm ▸ h.capacity c k
  case refine_2 =>
    have hlists : (rest ++ take ++ blocks).Perm (held ++ (state.caches cpu).blocks cls) := by
      rw [List.append_assoc]
      refine (hperm.append_left rest).trans ?_
      rw [← List.append_assoc]
      exact (List.perm_append_comm.trans hput.symm).append_right _
    have hmoved : withLayout (classLayout cls) _ = _ := withLayout_perm hlists
    rw [withLayout_append _ _ blocks, withLayout_append _ held, ← hhand, ← hh] at hmoved
    simp only [HeapState.held]
    rw [← hmoved]
    exact congrArg (_ + withLayout (classLayout cls) ·) hself
  case refine_3 =>
    cases p
    case cache c k =>
      have hc : (c, k) ≠ (cpu, cls) := fun he => hp' (by rw [(Prod.mk.inj he).1, (Prod.mk.inj he).2])
      exact congrArg (withLayout (classLayout k)) (hcache c k hc)
    case hand t => exact exchange_hands_ne _ _ _ fun he => hp (by rw [he])
    all_goals rfl

-- A thread passes blocks to the callers, or takes them from there.
theorem Blocks.outstanding_passes (h : state.Blocks) (outstanding : List (Nat × Layout)) (put take : List Nat)
    (hh : state.hands thread = withLayout layout put)
    (hp : withLayout layout take + HeapState.held { state with outstanding } .outstanding =
      withLayout layout put + state.held .outstanding) :
    Passes (.hand thread) .outstanding state ({ state with outstanding }.exchange thread layout put take) ∧
    ({ state with outstanding }.exchange thread layout put take).hands thread = withLayout layout take := by
  have hhand : ({ state with outstanding }.exchange thread layout put take).hands thread = withLayout layout take :=
    (exchange_hands (hh.trans (add_zero _).symm)).trans (zero_add _)
  refine ⟨⟨rfl, rfl, h.capacity, by simp, by simp, by simp, ?_, fun p hp hp' => ?_⟩, hhand⟩
  case refine_1 =>
    show HeapState.hands _ thread + _ = state.hands thread + _
    rw [hhand, hh]
    exact hp
  case refine_2 =>
    cases p
    case outstanding => exact absurd rfl hp'
    case hand t => exact exchange_hands_ne _ _ _ fun he => hp (by rw [he])
    all_goals rfl

omit [DecidableEq τ] in
-- The blocks that a thread holds and those of the central allocator do not overlap.
theorem Blocks.held_apart (h : state.Blocks) (hle : withLayout layout ptrs ≤ state.hands thread) :
    Apart ((ptrs.map (layout.shift, ·) : Multiset (Nat × Nat)) + state.central.blocks) where
  aligned block hb := by
    rcases Multiset.mem_add.mp hb with hb | hb
    case inl =>
      obtain ⟨ptr, hp, rfl⟩ := List.mem_map.mp (Multiset.mem_coe.mp hb)
      exact (h.fit (.hand thread) (ptr, layout) (Multiset.mem_of_le hle (mem_withLayout.mpr ⟨hp, rfl⟩))).1
    case inr => exact h.wf.aligned block hb
  once addr := by
    obtain ⟨others, ho⟩ := Multiset.le_iff_exists_add.mp hle
    have honce := h.placed.le_one (p := .hand thread) (q := .central) addr (by simp)
    simp only [placement, held, ho, heldCover_add, heldCover_withLayout] at honce
    rw [weigh_add, Heap.cover_eq]
    omega

-- A thread exchanges blocks with the central allocator.
theorem Blocks.exchange (h : state.Blocks) (thread : τ) {put take : List Nat}
    (hle : withLayout layout put ≤ state.hands thread) (hwf : Apart heap.blocks)
    (hcover : ∀ addr, heap.cover addr + weigh (covers addr) (take.map (layout.shift, ·) : Multiset (Nat × Nat)) =
      state.central.cover addr + weigh (covers addr) (put.map (layout.shift, ·) : Multiset (Nat × Nat)))
    (hfit : ∀ ptr ∈ take, 2 ^ layout.shift ∣ ptr ∧ layout.shift < Heap.order) :
    ({ state with central := heap }.exchange thread layout put take).Blocks := by
  obtain ⟨others, ho⟩ := Multiset.le_iff_exists_add.mp hle
  have hhand : ({ state with central := heap }.exchange thread layout put take).hands thread =
      others + withLayout layout take :=
    exchange_hands ho
  have hne {t : τ} (ht : t ≠ thread) :
      ({ state with central := heap }.exchange thread layout put take).hands t = state.hands t :=
    exchange_hands_ne layout put take ht
  refine ⟨hwf, ?_, fun p block hb => ?_, h.capacity⟩
  case refine_1 =>
    refine h.placed.move (p := .hand thread) (q := .central) (by simp) (fun addr => ?_)
      fun addr p hp hp' => ?_
    case refine_1 =>
      have hc := hcover addr
      simp only [placement, held, hhand, ho, heldCover_add, heldCover_withLayout]
      show _ + heap.cover addr = _ + state.central.cover addr
      omega
    case refine_2 =>
      cases p
      case central => exact absurd rfl hp'
      case hand t => exact congrArg (heldCover addr) (hne fun he => hp (by rw [he]))
      all_goals rfl
  case refine_2 =>
    cases p
    case central => exact absurd hb (Multiset.notMem_zero _)
    case cache cpu cls => exact h.fit (.cache cpu cls) block hb
    case outstanding => exact h.fit .outstanding block hb
    case hand t =>
      have hb : block ∈ ({ state with central := heap }.exchange thread layout put take).hands t := hb
      by_cases ht : t = thread
      case pos =>
        subst ht
        rw [hhand] at hb
        rcases Multiset.mem_add.mp hb with hb | hb
        case inl => exact h.fit (.hand t) block (ho ▸ Multiset.mem_add.mpr (.inr hb) : block ∈ state.hands t)
        case inr =>
          obtain ⟨hp, hl⟩ := mem_withLayout.mp hb
          rw [hl]
          exact hfit block.1 hp
      case neg =>
        rw [hne ht] at hb
        exact h.fit (.hand t) block hb

theorem Blocks.grant (h : state.Blocks) (thread : τ) (hg : state.central.Gives heap layout.shift ptrs)
    (hc : layout.shift < Heap.order) : ({ state with central := heap }.exchange thread layout [] ptrs).Blocks := by
  refine h.exchange thread (Multiset.zero_le _) (hg.apart.of_le (Multiset.le_add_left ..)) (fun addr => ?_)
    fun ptr hp => ⟨hg.apart.aligned (layout.shift, ptr) (Multiset.mem_add.mpr (.inl (by simpa using hp))), hc⟩
  have hw := hg.weigh _ (splits_covers addr)
  rw [weigh_add, Heap.cover_eq, Heap.cover_eq] at hw
  simp only [List.map_nil, Multiset.coe_nil, weigh_zero]
  omega

theorem Blocks.giveBack (h : state.Blocks) (thread : τ) (hle : withLayout layout ptrs ≤ state.hands thread)
    (ht : state.central.Takes heap layout.shift ptrs) :
    ({ state with central := heap }.exchange thread layout ptrs []).Blocks := by
  refine h.exchange thread hle ht.apart (fun addr => ?_) fun ptr hp => absurd hp (List.not_mem_nil)
  have hw := ht.weigh _ (splits_covers addr)
  rw [weigh_add, Heap.cover_eq, Heap.cover_eq] at hw
  simp only [List.map_nil, Multiset.coe_nil, weigh_zero]
  omega

omit [DecidableEq τ] in
-- Memory that is in no region is added to the central allocator.
theorem Blocks.grow (h : state.Blocks) {start stop : Nat} (hpos : 0 < start) (hlt : stop < 2 ^ 64)
    (hfresh : ∀ other ∈ state.regions, stop ≤ other.1 ∨ other.2 ≤ start) (hd : 8 ∣ start) (hd' : 8 ∣ stop) :
    Blocks { state with
      central := state.central.addToHeapFrom (stop - start) start stop,
      regions := (start, stop) :: state.regions } := by
  have hdisjoint (addr) (hin : start ≤ addr ∧ addr < stop) : ¬IsManaged state.regions addr := by
    rintro ⟨other, ho, hge, hl⟩
    have := hfresh other ho
    omega
  obtain ⟨hapart, hw⟩ := Heap.addToHeapFrom_spec (stop - start) h.wf hpos hlt (by omega) hd hd'
    fun addr hge hl => h.placed.outside addr (hdisjoint addr ⟨hge, hl⟩) .central
  refine ⟨hapart, ?_, h.fit, h.capacity⟩
  have hmanaged : IsManaged ((start, stop) :: state.regions) =
      fun addr => (start ≤ addr ∧ addr < stop) ∨ IsManaged state.regions addr := by
    funext addr
    simp [IsManaged]
  show Placement.Placed (IsManaged ((start, stop) :: state.regions)) _
  rw [hmanaged]
  refine h.placed.grow .central hdisjoint (fun addr => ?_) fun addr p hp => ?_
  case refine_1 =>
    have hcover := hw _ (splits_covers addr)
    rw [Heap.cover_eq, Heap.cover_eq, span_covers] at hcover
    show Heap.cover _ addr = state.central.cover addr + _
    rw [hcover]
    split_ifs <;> omega
  case refine_2 =>
    cases p
    case central => exact absurd rfl hp
    all_goals rfl

end HeapState

-- What a thread holds, and what it has gone through for its request.
structure HeapProgress (cpus : Nat) where
  hand : Multiset (Nat × Layout)
  progress : Attempt.Progress (Fin cpus × SmallClass) Layout

open HeapState HeapInstr

variable {τ : Type} [DecidableEq τ] {cpus : Nat} {state state' : HeapState τ cpus} {thread : τ}
variable {values : τ → HeapProgress cpus} {g : HeapProgress cpus} {hand : Multiset (Nat × Layout)} {heap : Heap}
variable {layout : Layout} {ptrs rest held : List Nat} {ptr : Nat} {place : HeapPlace τ cpus}
variable {progress : Attempt.Progress (Fin cpus × SmallClass) Layout}
variable {attempt : Attempt τ (Fin cpus × SmallClass) Layout Heap}

namespace HeapState

-- A block that was obtained and not given back is held by someone.
structure Log (state : HeapState τ cpus) (values : τ → HeapProgress cpus) : Prop where
  told     : Attempt.Told Heap.Exhausted state.attempts (HeapProgress.progress ∘ values)
  granted  : ∀ ptr layout, HeapEvent.layoutOf ptr state.history = some layout ↔
               ∃ place, (ptr, layout) ∈ state.held place
  returned : state.ReturnedAsGranted

structure Inv (state : HeapState τ cpus) (values : τ → HeapProgress cpus) : Prop where
  blocks : state.Blocks
  log    : state.Log values
  hands  : ∀ t, (values t).hand = state.hands t

theorem Log.told_same (h : state.Log values) (hv : values thread = g) :
    Attempt.Told Heap.Exhausted state.attempts
      (HeapProgress.progress ∘ Function.update values thread { g with hand }) := by
  have hp : (HeapProgress.progress ∘ values) thread = g.progress := congrArg HeapProgress.progress hv
  rw [Function.comp_update]
  exact h.told.same hp

theorem Inv.hands_update (h : Inv state values) (hhands : ∀ t, t ≠ thread → state'.hands t = state.hands t)
    (hg : g.hand = state'.hands thread) (t : τ) : (Function.update values thread g t).hand = state'.hands t := by
  by_cases ht : t = thread
  case pos =>
    subst ht
    rw [Function.update_self, hg]
  case neg => rw [Function.update_of_ne ht, h.hands, hhands t ht]

-- A thread passes blocks to another place, or takes them from there.
theorem Inv.pass (h : Inv state values) (hv : values thread = g) (hp : Passes (.hand thread) place state state')
    (hplace : ∀ t, place ≠ .hand t) (ha : state'.attempts = state.attempts) (hs : state'.history = state.history)
    (hhand : state'.hands thread = hand) : Inv state' (Function.update values thread { g with hand }) where
  blocks := h.blocks.pass hp
  hands  := h.hands_update (fun t ht => hp.others (.hand t) (fun he => ht (HeapPlace.hand.inj he)) (hplace t).symm)
    hhand.symm
  log := {
    told     := ha ▸ h.log.told_same hv
    granted  := fun ptr layout => by
      rw [hs, hp.held_iff]
      exact h.log.granted ptr layout
    returned := by
      rw [ReturnedAsGranted, hs]
      exact h.log.returned
  }

omit [DecidableEq τ] in
theorem Blocks.tell (h : state.Blocks) (attempt : Attempt τ (Fin cpus × SmallClass) Layout Heap) :
    (state.tell attempt).Blocks :=
  ⟨h.wf, h.placed, h.fit, h.capacity⟩

theorem Inv.tell (h : Inv state values) (hv : values thread = g)
    (ht : Attempt.Told Heap.Exhausted (attempt :: state.attempts)
      (Function.update (HeapProgress.progress ∘ values) thread progress)) :
    Inv (state.tell attempt) (Function.update values thread { g with progress }) where
  blocks := h.blocks.tell attempt
  hands  := h.hands_update (fun _ _ => rfl) (by rw [← hv]; exact h.hands thread)
  log := {
    told := by
      rw [Function.comp_update]
      exact ht
    granted  := h.log.granted
    returned := h.log.returned
  }

omit [DecidableEq τ] in
theorem Blocks.record (h : state.Blocks) (event : HeapEvent) : (state.record event).Blocks :=
  ⟨h.wf, h.placed, h.fit, h.capacity⟩

-- A block that someone other than a thread holds.
def Elsewhere (state : HeapState τ cpus) (thread : τ) (block : Nat × Layout) : Prop :=
  ∃ place, place ≠ .hand thread ∧ block ∈ state.held place

omit [DecidableEq τ] in
theorem held_or_elsewhere (state : HeapState τ cpus) (thread : τ) (block : Nat × Layout) :
    (∃ place, block ∈ state.held place) ↔ block ∈ state.hands thread ∨ state.Elsewhere thread block := by
  constructor
  case mp =>
    rintro ⟨place, hm⟩
    by_cases hp : place = .hand thread
    case pos => exact .inl (hp ▸ hm : block ∈ state.held (.hand thread))
    case neg => exact .inr ⟨place, hp, hm⟩
  case mpr =>
    rintro (hm | ⟨place, -, hm⟩)
    case inl => exact ⟨.hand thread, hm⟩
    case inr => exact ⟨place, hm⟩

-- An exchange with the central allocator leaves what others hold.
theorem elsewhere_exchange (state : HeapState τ cpus) (heap : Heap) (layout : Layout) (put take : List Nat)
    (block : Nat × Layout) : ({ state with central := heap }.exchange thread layout put take).Elsewhere thread block ↔
    state.Elsewhere thread block := by
  refine exists_congr fun place => and_congr_right fun hp => ?_
  cases place
  case hand t =>
    have ht : t ≠ thread := fun he => hp (by rw [he])
    exact iff_of_eq (congrArg (block ∈ ·) (exchange_hands_ne layout put take ht))
  all_goals exact Iff.rfl

-- The central allocator grants blocks to a thread.
theorem Inv.grant (h : Inv state values) (hv : values thread = g) (hh : state.hands thread = 0)
    (hg : state.central.Gives heap layout.shift ptrs) (hc : layout.shift < Heap.order) :
    Inv (({ state with central := heap }.exchange thread layout [] ptrs).record (.granted ptrs layout))
      (Function.update values thread { g with hand := withLayout layout ptrs }) := by
  have hhand :
      ({ state with central := heap }.exchange thread layout [] ptrs).hands thread = withLayout layout ptrs :=
    (exchange_hands hh).trans (zero_add _)
  have hfresh (ptr) (hp : ptr ∈ ptrs) (layout') : ¬∃ place, (ptr, layout') ∈ state.held place := by
    rintro ⟨place, hm⟩
    exact h.blocks.not_held (hg.cover_pos hp) place layout' hm
  refine ⟨(h.blocks.grant thread hg hc).record _, ⟨h.log.told_same hv, fun ptr layout' => ?_, ?_⟩,
    h.hands_update (fun t ht => exchange_hands_ne _ _ _ ht) hhand.symm⟩
  case refine_1 =>
    show (if ptr ∈ ptrs then some layout else HeapEvent.layoutOf ptr state.history) = some layout' ↔
      ∃ place, (ptr, layout') ∈ ({ state with central := heap }.exchange thread layout [] ptrs).held place
    have hold := held_or_elsewhere state thread (ptr, layout')
    rw [hh] at hold
    rw [held_or_elsewhere _ thread, hhand, mem_withLayout, elsewhere_exchange]
    by_cases hp : ptr ∈ ptrs
    case pos =>
      have hnone := hfresh ptr hp layout'
      rw [hold] at hnone
      simp only [hp, if_true, Option.some.injEq, true_and, (not_or.mp hnone).2, or_false, eq_comm]
    case neg =>
      rw [if_neg hp, h.log.granted, hold]
      simp [hp]
  case refine_2 =>
    intro later earlier ptrs' layout' heq
    cases later
    case nil  => cases (List.cons.inj heq).1
    case cons => exact h.log.returned _ earlier ptrs' layout' (List.cons.inj heq).2

-- A thread gives blocks back with the layout that they were obtained with.
theorem Inv.giveBack (h : Inv state values) (hv : values thread = g)
    (hh : state.hands thread = withLayout layout held) (hp : held.Perm (ptrs ++ rest))
    (ht : state.central.Takes heap layout.shift ptrs) :
    Inv (({ state with central := heap }.exchange thread layout ptrs []).record (.returned ptrs layout))
      (Function.update values thread { g with hand := withLayout layout rest }) := by
  have hold : state.hands thread = withLayout layout ptrs + withLayout layout rest := by
    rw [hh, withLayout_perm hp, withLayout_append]
  have hhand :
      ({ state with central := heap }.exchange thread layout ptrs []).hands thread = withLayout layout rest :=
    (exchange_hands hold).trans (add_zero _)
  have hblocks := h.blocks.giveBack thread (hold ▸ Multiset.le_add_right ..) ht
  have hfresh (ptr) (hp : ptr ∈ ptrs) (layout') :
      ¬∃ place, (ptr, layout') ∈ ({ state with central := heap }.exchange thread layout ptrs []).held place := by
    rintro ⟨place, hm⟩
    exact hblocks.not_held (ht.cover_pos hp) place layout' hm
  refine ⟨hblocks.record _, ⟨h.log.told_same hv, fun ptr layout' => ?_, ?_⟩,
    h.hands_update (fun t ht => exchange_hands_ne _ _ _ ht) hhand.symm⟩
  case refine_1 =>
    show (if ptr ∈ ptrs then none else HeapEvent.layoutOf ptr state.history) = some layout' ↔
      ∃ place, (ptr, layout') ∈ ({ state with central := heap }.exchange thread layout ptrs []).held place
    by_cases hp : ptr ∈ ptrs
    case pos =>
      have hnone := hfresh ptr hp layout'
      simp [hp, hnone]
    case neg =>
      rw [if_neg hp, h.log.granted, held_or_elsewhere _ thread, held_or_elsewhere _ thread, hhand, hold,
        elsewhere_exchange, Multiset.mem_add, mem_withLayout, mem_withLayout]
      simp [hp]
  case refine_2 =>
    intro later earlier ptrs' layout' heq
    cases later
    case nil =>
      obtain ⟨he, rfl⟩ := List.cons.inj heq
      cases he
      intro ptr hptr
      have hmem : (ptr, layout) ∈ state.hands thread := by
        rw [hold]
        exact Multiset.mem_add.mpr (.inl (mem_withLayout.mpr ⟨hptr, rfl⟩))
      exact (h.log.granted ptr layout).mpr ⟨.hand thread, hmem⟩
    case cons => exact h.log.returned _ earlier ptrs' layout' (List.cons.inj heq).2

end HeapState

end WllOs
