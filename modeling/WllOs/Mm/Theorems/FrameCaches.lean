import WllOs.Mm.FrameCaches
import WllOs.Mm.Theorems.BuddyFrames

namespace WllOs

variable {ppn start n : Nat} {pages : List Nat}

theorem count_range' (ppn start n : Nat) :
    (List.range' start n).count ppn = if start ≤ ppn ∧ ppn < start + n then 1 else 0 := by
  rw [List.Nodup.count (List.nodup_range' ..)]
  simp [List.mem_range'_1]

theorem count_le_of_le {held : Multiset Nat} (h : (pages : Multiset Nat) ≤ held) (ppn : Nat) :
    pages.count ppn ≤ held.count ppn := by
  rw [← Multiset.coe_count]
  exact Multiset.le_iff_count.mp h ppn

theorem length_frameRun (start n : Nat) : (frameRun start n).length = nextPowerOfTwo n :=
  List.length_range' ..

theorem frameRun_one (start : Nat) : frameRun start 1 = [start] :=
  rfl

namespace FrameAllocator

open BuddyBlocks

variable {allocator allocator' : FrameAllocator}

theorem covers_frameRun {cls : Nat} (start : Nat) (h : nextPowerOfTwo n = 2 ^ cls) (ppn : Nat) :
    covers ppn cls start = (frameRun start n).count ppn := by
  rw [frameRun, h, count_range', covers]

-- An allocation takes the pages of a range out of the free lists.
structure Gives (allocator allocator' : FrameAllocator) (start n : Nat) : Prop where
  wf      : allocator'.Wf
  aligned : nextPowerOfTwo n ∣ start
  cover   : ∀ ppn, allocator'.cover ppn + (frameRun start n).count ppn = allocator.cover ppn
  free    : allocator'.freePages + nextPowerOfTwo n = allocator.freePages

theorem Wf.alloc (h : allocator.Wf) (n : Nat) :
    allocator.alloc n = (none, allocator) ∨
    ∃ start allocator', allocator.alloc n = (some start, allocator') ∧ allocator.Gives allocator' start n := by
  obtain ⟨cls, hcls⟩ := nextPowerOfTwo_eq n
  rw [FrameAllocator.alloc, hcls]
  rcases h.allocPowerOfTwo cls with ⟨hnone, -⟩ | ⟨start, allocator', hsome, hwf, -, hd, hw⟩
  case inl => exact .inl hnone
  case inr =>
    refine .inr ⟨start, allocator', hsome, hwf, hcls ▸ hd, fun ppn => ?_, ?_⟩
    case refine_1 =>
      rw [← covers_frameRun start hcls]
      exact hw _ (splits_covers ppn)
    case refine_2 =>
      rw [hcls]
      exact hw _ splits_size

-- A release puts the pages of a range into the free lists.
structure Takes (allocator allocator' : FrameAllocator) (pages : List Nat) : Prop where
  wf    : allocator'.Wf
  cover : ∀ ppn, allocator'.cover ppn = allocator.cover ppn + pages.count ppn
  free  : allocator'.freePages = allocator.freePages + pages.length

theorem Wf.dealloc (h : allocator.Wf) (hd : nextPowerOfTwo n ∣ start)
    (honce : ∀ ppn, allocator.cover ppn + (frameRun start n).count ppn ≤ 1)
    (hb : ∀ ppn ∈ frameRun start n, 0 < ppn ∧ ppn < 2 ^ order) :
    allocator.Takes (allocator.dealloc start n) (frameRun start n) := by
  obtain ⟨cls, hcls⟩ := nextPowerOfTwo_eq n
  have hcovers := covers_frameRun start hcls
  have hfits : allocator.Fits cls start := {
    aligned := hcls ▸ hd
    once ppn := hcovers ppn ▸ honce ppn
    bounds ppn hpos := hb ppn (List.count_pos_iff.mp (hcovers ppn ▸ hpos))
  }
  have hle : cls ≤ order := by
    obtain ⟨hpos, hlt⟩ := hfits.bounds start (by rw [covers_start]; exact Nat.one_pos)
    have : 2 ^ cls < 2 ^ order := (Nat.le_of_dvd hpos hfits.aligned).trans_lt hlt
    exact ((Nat.pow_lt_pow_iff_right Nat.one_lt_two).mp this).le
  have ⟨hwf, hw⟩ := h.mergeFrom hfits (Nat.add_sub_cancel' hle)
  have heq : allocator.dealloc start n = FrameAllocator.mergeFrom (order - cls) allocator start cls := by
    simp only [FrameAllocator.dealloc, deallocPowerOfTwo, hcls, Nat.log2_two_pow]
  rw [heq]
  refine ⟨hwf, fun ppn => ?_, ?_⟩
  case refine_1 =>
    rw [← hcovers]
    exact hw _ (splits_covers ppn)
  case refine_2 =>
    rw [length_frameRun, hcls]
    exact hw _ splits_size

theorem Wf.deallocPages (h : allocator.Wf) (honce : ∀ ppn, allocator.cover ppn + pages.count ppn ≤ 1)
    (hb : ∀ ppn ∈ pages, 0 < ppn ∧ ppn < 2 ^ order) :
    allocator.Takes (pages.foldl (fun allocator ppn => allocator.dealloc ppn 1) allocator) pages := by
  induction pages generalizing allocator
  case nil => exact ⟨h, fun _ => by simp, by simp⟩
  case cons page pages hi =>
    have hrun : frameRun page 1 = [page] := frameRun_one page
    have hfirst : allocator.Takes (allocator.dealloc page 1) [page] := by
      rw [← hrun]
      refine h.dealloc (one_dvd _) (fun ppn => (Nat.add_le_add_left ?_ _).trans (honce ppn)) fun ppn hp => ?_
      case refine_1 => rw [hrun]; exact List.Sublist.count_le _ (by simp)
      case refine_2 => exact hb ppn (by simp_all)
    have hcount (ppn) : (page :: pages).count ppn = [page].count ppn + pages.count ppn := by
      rw [← List.count_append]
      rfl
    have hrest := hi hfirst.wf (fun ppn => by rw [hfirst.cover, Nat.add_assoc, ← hcount]; exact honce ppn)
      fun ppn hp => hb ppn (.tail _ hp)
    refine ⟨hrest.wf, fun ppn => ?_, ?_⟩
    case refine_1 => rw [List.foldl_cons, hrest.cover, hfirst.cover, hcount, Nat.add_assoc]
    case refine_2 =>
      rw [List.foldl_cons, hrest.free, hfirst.free, List.length_singleton, List.length_cons]
      omega

end FrameAllocator

namespace FrameState

variable {τ : Type} [DecidableEq τ] [Fintype τ] {cpus : Nat} {state state' : FrameState τ cpus} {thread : τ}
variable {regions : List (Nat × Nat)} {place place' : FramePlace τ cpus}

-- Pages are at one place each, and the counter of free pages agrees with the places.
structure Pools (regions : List (Nat × Nat)) (state : FrameState τ cpus) : Prop extends state.Conserved regions where
  given   : state.regions = regions
  wf      : state.allocator.Wf
  placed  : Placement.Placed (IsManaged regions) state.placement
  aligned : ∀ run ∈ state.contiguous, nextPowerOfTwo run.2 ∣ run.1
  managed : ∀ run ∈ state.contiguous, isManagedRange regions run.1 run.2
  counted : state.Counted
  bounds  : ∀ ppn, IsManaged regions ppn → 0 < ppn ∧ ppn < 2 ^ FrameAllocator.order

-- A step of a thread that moves pages between two places.
structure Moves (thread : τ) (place place' : FramePlace τ cpus) (state state' : FrameState τ cpus) : Prop where
  regions  : state'.regions = state.regions
  wf       : state'.allocator.Wf
  capacity : ∀ cpu, (state'.caches cpu).frames.length ≤ FRAME_CACHE_CAPACITY
  owners   : ∀ ppn, state'.refs ppn = state'.trackers.count ppn
  runs     : ∀ run ∈ state'.contiguous, run ∈ state.contiguous ∨
               nextPowerOfTwo run.2 ∣ run.1 ∧ isManagedRange state.regions run.1 run.2
  ne       : place ≠ place'
  hands    : ∀ t, t ≠ thread → state'.hands t = state.hands t
  moved    : ∀ ppn, state'.placement ppn place + state'.placement ppn place' =
               state.placement ppn place + state.placement ppn place'
  others   : ∀ ppn p, p ≠ place → p ≠ place' → state'.placement ppn p = state.placement ppn p
  balance  : (state'.freeManagedFrames + (state'.hands thread).debt + state.stock +
                 (state.hands thread).credit) % 2 ^ 64 =
               (state.freeManagedFrames + (state.hands thread).debt + state'.stock +
                 (state'.hands thread).credit) % 2 ^ 64

omit [DecidableEq τ] in
theorem Pools.move (h : state.Pools regions) (hm : Moves thread place place' state state') : state'.Pools regions where
  once           := (h.placed.move hm.ne hm.moved hm.others).once
  owners         := hm.owners
  capacity       := hm.capacity
  given          := hm.regions.trans h.given
  wf             := hm.wf
  placed         := h.placed.move hm.ne hm.moved hm.others
  aligned run hr := (hm.runs run hr).elim (h.aligned run) And.left
  managed run hr := (hm.runs run hr).elim (h.managed run) fun hn => h.given ▸ hn.2
  bounds  := h.bounds
  counted := by
    have hcounted : _ % _ = _ % _ := h.counted
    have hdebt := Ledger.sum_of_ne thread fun t ht => congrArg FrameHand.debt (hm.hands t ht)
    have hcredit := Ledger.sum_of_ne thread fun t ht => congrArg FrameHand.credit (hm.hands t ht)
    have hbalance := hm.balance
    show _ % _ = _ % _
    omega

omit [DecidableEq τ] [Fintype τ] in
-- A step that moves pages between what the thread holds and another place.
theorem Moves.ofHand (hplace : ∀ t, place ≠ .hand t) (hregions : state'.regions = state.regions)
    (hwf : state'.allocator.Wf) (hcap : ∀ cpu, (state'.caches cpu).frames.length ≤ FRAME_CACHE_CAPACITY)
    (howners : ∀ ppn, state'.refs ppn = state'.trackers.count ppn)
    (hruns : ∀ run ∈ state'.contiguous, run ∈ state.contiguous ∨
      nextPowerOfTwo run.2 ∣ run.1 ∧ isManagedRange state.regions run.1 run.2)
    (hhands : ∀ t, t ≠ thread → state'.hands t = state.hands t)
    (hmoved : ∀ ppn, (state'.hands thread).pages.count ppn + state'.placement ppn place =
      (state.hands thread).pages.count ppn + state.placement ppn place)
    (hothers : ∀ ppn p, p ≠ place → (∀ t, p ≠ .hand t) → state'.placement ppn p = state.placement ppn p)
    (hbalance : (state'.freeManagedFrames + (state'.hands thread).debt + state.stock +
        (state.hands thread).credit) % 2 ^ 64 =
      (state.freeManagedFrames + (state.hands thread).debt + state'.stock + (state'.hands thread).credit) % 2 ^ 64) :
    Moves thread (.hand thread) place state state' where
  regions  := hregions
  wf       := hwf
  capacity := hcap
  owners   := howners
  runs     := hruns
  ne       := (hplace thread).symm
  hands    := hhands
  moved    := hmoved
  balance  := hbalance
  others ppn p hp hq := by
    cases p
    case hand t =>
      have ht : t ≠ thread := fun h => hp (congrArg FramePlace.hand h)
      simp only [placement, hhands t ht]
    all_goals exact hothers ppn _ hq fun t he => by cases he

omit [Fintype τ] in
@[simp]
theorem mapHand_hands (f : FrameHand → FrameHand) : (state.mapHand thread f).hands thread = f (state.hands thread) :=
  Function.update_self ..

omit [Fintype τ] in
theorem mapHand_hands_ne (f : FrameHand → FrameHand) {t : τ} (h : t ≠ thread) :
    (state.mapHand thread f).hands t = state.hands t :=
  Function.update_of_ne h ..

omit [DecidableEq τ] [Fintype τ] in
theorem cachedPages_setCache (state : FrameState τ cpus) (cpu : Fin cpus) (cache : LocalFrameCache) :
    (state.setCache cpu cache).cachedPages + (state.caches cpu).frames.length =
      state.cachedPages + cache.frames.length := by
  have h := Ledger.sum_of_ne (f := fun c => ((state.setCache cpu cache).caches c).frames.length)
    (g := fun c => (state.caches c).frames.length) cpu fun c hc => by simp [setCache, hc]
  simpa [cachedPages, setCache] using h

-- A step that exchanges pages with the cache of a processor.
theorem Pools.setCache_moves (h : state.Pools regions) {cpu : Fin cpus} {cache : LocalFrameCache}
    {f : FrameHand → FrameHand} (hcap : cache.frames.length ≤ FRAME_CACHE_CAPACITY)
    (hpages : (f (state.hands thread)).pages + (cache.frames : Multiset Nat) =
      (state.hands thread).pages + ((state.caches cpu).frames : Multiset Nat))
    (hcredit : (f (state.hands thread)).credit + cache.frames.length =
      (state.hands thread).credit + (state.caches cpu).frames.length)
    (hdebt : (f (state.hands thread)).debt = (state.hands thread).debt) :
    Moves thread (.hand thread) (.cache cpu) state ((state.setCache cpu cache).mapHand thread f) := by
  refine .ofHand (fun t he => by cases he) rfl h.wf (fun c => ?_) h.owners (fun run => .inl)
    (fun t => mapHand_hands_ne f) (fun ppn => ?_) (fun ppn p hp hq => ?_) ?_
  case refine_1 =>
    by_cases hc : c = cpu
    case pos => simpa [mapHand, setHand, setCache, hc] using hcap
    case neg => simpa [mapHand, setHand, setCache, hc] using h.capacity c
  case refine_2 =>
    have hcount := congrArg (Multiset.count ppn) hpages
    simpa [placement, mapHand, setHand, setCache] using hcount
  case refine_3 =>
    cases p
    case cache c =>
      have hc : c ≠ cpu := fun he => hp (congrArg FramePlace.cache he)
      simp [placement, mapHand, setHand, setCache, hc]
    case hand t => exact absurd rfl (hq t)
    all_goals rfl
  case refine_4 =>
    have hcached := cachedPages_setCache state cpu cache
    have hstock : ((state.setCache cpu cache).mapHand thread f).stock + (state.caches cpu).frames.length =
        state.stock + cache.frames.length := by
      show state.allocator.freePages + (state.setCache cpu cache).cachedPages + state.padding + state.discarded.length +
        (state.caches cpu).frames.length = state.stock + cache.frames.length
      simp only [stock]
      omega
    have hfree : ((state.setCache cpu cache).mapHand thread f).freeManagedFrames = state.freeManagedFrames := rfl
    rw [mapHand_hands, hfree]
    simp only [setCache] at *
    omega

-- The pages of a list that a thread holds are managed, and none of them is anywhere else.
omit [DecidableEq τ] in
theorem Pools.held_bounds (h : state.Pools regions) (hle : (pages : Multiset Nat) ≤ (state.hands thread).pages) :
    ∀ ppn ∈ pages, 0 < ppn ∧ ppn < 2 ^ FrameAllocator.order := by
  intro ppn hp
  have hpos : 0 < state.placement ppn (.hand thread) :=
    Multiset.count_pos.mpr (Multiset.mem_of_le hle (Multiset.mem_coe.mpr hp))
  exact h.bounds ppn (h.placed.managed_of_pos hpos)

omit [DecidableEq τ] in
theorem Pools.held_once (h : state.Pools regions) (hle : (pages : Multiset Nat) ≤ (state.hands thread).pages)
    (ppn : Nat) : state.allocator.cover ppn + pages.count ppn ≤ 1 := by
  have hplace : (.hand thread : FramePlace τ cpus) ≠ .buddy := fun he => by cases he
  calc state.allocator.cover ppn + pages.count ppn
      ≤ state.placement ppn .buddy + state.placement ppn (.hand thread) :=
        Nat.add_le_add_left (count_le_of_le hle ppn) _
    _ ≤ 1 := h.placed.le_one ppn hplace.symm

omit [Fintype τ] in
-- The pages of a thread that go to the free lists.
theorem Pools.give_moves [Fintype τ] (h : state.Pools regions) (thread : τ) {allocator : FrameAllocator}
    {f : FrameHand → FrameHand} (hle : (pages : Multiset Nat) ≤ (state.hands thread).pages)
    (ht : state.allocator.Takes allocator pages)
    (hpages : (f (state.hands thread)).pages = (state.hands thread).pages - (pages : Multiset Nat))
    (hcredit : (f (state.hands thread)).credit + pages.length =
      (state.hands thread).credit + ((f (state.hands thread)).debt - (state.hands thread).debt))
    (hdebt : (state.hands thread).debt ≤ (f (state.hands thread)).debt) :
    Moves thread (.hand thread) .buddy state ({ state with allocator }.mapHand thread f) := by
  refine .ofHand (fun t he => by cases he) rfl ht.wf h.capacity h.owners (fun run => .inl)
    (fun t => mapHand_hands_ne f) (fun ppn => ?_) (fun ppn p hp hq => ?_) ?_
  case refine_1 =>
    have hcover := ht.cover ppn
    have hcount := count_le_of_le hle ppn
    rw [mapHand_hands, hpages, Multiset.count_sub, Multiset.coe_count]
    show _ + allocator.cover ppn = _ + state.allocator.cover ppn
    omega
  case refine_2 =>
    cases p
    case buddy => exact absurd rfl hp
    case hand t => exact absurd rfl (hq t)
    all_goals rfl
  case refine_3 =>
    have hfree := ht.free
    have hstock : ({ state with allocator }.mapHand thread f).stock = state.stock + pages.length := by
      show allocator.freePages + state.cachedPages + state.padding + state.discarded.length = state.stock + pages.length
      simp only [stock]
      omega
    have hsame : ({ state with allocator }.mapHand thread f).freeManagedFrames = state.freeManagedFrames := rfl
    rw [mapHand_hands, hstock, hsame]
    simp only
    omega

omit [Fintype τ] in
-- A range that a thread takes out of the free lists.
theorem Pools.take_moves [Fintype τ] (h : state.Pools regions) (thread : τ) {allocator : FrameAllocator}
    (hg : state.allocator.Gives allocator start n) :
    Moves thread (.hand thread) .buddy state ({ state with allocator }.mapHand thread (·.take (frameRun start n))) := by
  refine .ofHand (fun t he => by cases he) rfl hg.wf h.capacity h.owners (fun run => .inl)
    (fun t => mapHand_hands_ne _) (fun ppn => ?_) (fun ppn p hp hq => ?_) ?_
  case refine_1 =>
    have hcover := hg.cover ppn
    rw [mapHand_hands, FrameHand.take, Multiset.count_add, Multiset.coe_count]
    show _ + allocator.cover ppn = _ + state.allocator.cover ppn
    simp only
    omega
  case refine_2 =>
    cases p
    case buddy => exact absurd rfl hp
    case hand t => exact absurd rfl (hq t)
    all_goals rfl
  case refine_3 =>
    have hfree := hg.free
    have hstock : ({ state with allocator }.mapHand thread (·.take (frameRun start n))).stock + nextPowerOfTwo n =
        state.stock := by
      show allocator.freePages + state.cachedPages + state.padding + state.discarded.length + _ = state.stock
      simp only [stock]
      omega
    have hsame : ({ state with allocator }.mapHand thread (·.take (frameRun start n))).freeManagedFrames =
      state.freeManagedFrames := rfl
    rw [mapHand_hands, hsame, FrameHand.take, length_frameRun]
    simp only
    omega

omit [DecidableEq τ] [Fintype τ] in
-- A range that is not managed is taken out of the free lists for good.
theorem Pools.discard_moves [Fintype τ] (h : state.Pools regions) (thread : τ) {allocator : FrameAllocator}
    (hg : state.allocator.Gives allocator start n) :
    Moves thread .buddy .discarded state
      { state with allocator, discarded := state.discarded ++ frameRun start n } where
  regions  := rfl
  wf       := hg.wf
  capacity := h.capacity
  owners   := h.owners
  runs run := .inl
  ne he    := by cases he
  hands _ _ := rfl
  moved ppn := by
    have hcover := hg.cover ppn
    simp only [placement, List.count_append]
    omega
  others ppn p hp hq := by
    cases p
    case buddy => exact absurd rfl hp
    case discarded => exact absurd rfl hq
    all_goals rfl
  balance := by
    have hfree := hg.free
    simp only [stock, cachedPages, padding, List.length_append, length_frameRun]
    omega

omit [Fintype τ] in
-- A range that a thread holds and that nobody is to use.
theorem Pools.discardContiguous_moves [Fintype τ] (h : state.Pools regions) (thread : τ)
    (hle : (frameRun start n : Multiset Nat) ≤ (state.hands thread).pages)
    (hcredit : nextPowerOfTwo n ≤ (state.hands thread).credit) :
    Moves thread (.hand thread) .discarded state (FrameInstr.discardContiguousExec thread start n state) := by
  refine .ofHand (fun t he => by cases he) rfl h.wf h.capacity h.owners (fun run => .inl)
    (fun t => mapHand_hands_ne _) (fun ppn => ?_) (fun ppn p hp hq => ?_) ?_
  case refine_1 =>
    have hcount := count_le_of_le hle ppn
    simp only [FrameInstr.discardContiguousExec, mapHand_hands, FrameHand.put, Multiset.count_sub, Multiset.coe_count]
    show _ + (state.discarded ++ frameRun start n).count ppn = _ + state.discarded.count ppn
    rw [List.count_append]
    omega
  case refine_2 =>
    cases p
    case discarded => exact absurd rfl hp
    case hand t => exact absurd rfl (hq t)
    all_goals rfl
  case refine_3 =>
    have hstock : (FrameInstr.discardContiguousExec thread start n state).stock = state.stock + nextPowerOfTwo n := by
      show state.allocator.freePages + state.cachedPages + state.padding +
        (state.discarded ++ frameRun start n).length = _
      rw [List.length_append, length_frameRun, ← Nat.add_assoc]
      rfl
    have hhand : (FrameInstr.discardContiguousExec thread start n state).hands thread =
      (state.hands thread).put (frameRun start n) := mapHand_hands _
    have hsame : (FrameInstr.discardContiguousExec thread start n state).freeManagedFrames =
      state.freeManagedFrames := rfl
    rw [hhand, hstock, hsame, FrameHand.put, length_frameRun]
    simp only
    omega

-- The counter changes by what the thread then holds as counted.
omit [Fintype τ] in
theorem Pools.count_moves [Fintype τ] (h : state.Pools regions) (free : Nat) (f : FrameHand → FrameHand)
    (hpages : (f (state.hands thread)).pages = (state.hands thread).pages)
    (hfree : (free + (f (state.hands thread)).debt + (state.hands thread).credit) % 2 ^ 64 =
      (state.freeManagedFrames + (state.hands thread).debt + (f (state.hands thread)).credit) % 2 ^ 64) :
    Moves thread (.hand thread) .buddy state ({ state with freeManagedFrames := free }.mapHand thread f) := by
  refine .ofHand (fun t he => by cases he) rfl h.wf h.capacity h.owners (fun run => .inl)
    (fun t => mapHand_hands_ne f) (fun ppn => ?_) (fun ppn p hp hq => ?_) ?_
  case refine_1 =>
    rw [mapHand_hands, hpages]
    rfl
  case refine_2 =>
    cases p
    case hand t => exact absurd rfl (hq t)
    all_goals rfl
  case refine_3 =>
    have hstock : ({ state with freeManagedFrames := free }.mapHand thread f).stock = state.stock := rfl
    have hcounter : ({ state with freeManagedFrames := free }.mapHand thread f).freeManagedFrames = free := rfl
    rw [mapHand_hands, hstock, hcounter]
    simp only
    omega

omit [DecidableEq τ] [Fintype τ] in
theorem Moves.record (h : Moves thread place place' state state') (event : FrameEvent) :
    Moves thread place place' state (state'.record event) where
  regions  := h.regions
  wf       := h.wf
  capacity := h.capacity
  owners   := h.owners
  runs     := h.runs
  ne       := h.ne
  hands    := h.hands
  moved    := h.moved
  others ppn p hp hq := by
    rw [← h.others ppn p hp hq]
    cases p <;> rfl
  balance  := h.balance

omit [DecidableEq τ] [Fintype τ] in
theorem Moves.tell (h : Moves thread place place' state state') (attempt : Attempt τ (Fin cpus) Nat FrameAllocator) :
    Moves thread place place' state (state'.tell attempt) where
  regions  := h.regions
  wf       := h.wf
  capacity := h.capacity
  owners   := h.owners
  runs     := h.runs
  ne       := h.ne
  hands    := h.hands
  moved    := h.moved
  others ppn p hp hq := by
    rw [← h.others ppn p hp hq]
    cases p <;> rfl
  balance  := h.balance

omit [DecidableEq τ] in
theorem Pools.tell (h : state.Pools regions) (attempt : Attempt τ (Fin cpus) Nat FrameAllocator) :
    (state.tell attempt).Pools regions := by
  have hplacement : (state.tell attempt).placement = state.placement := by
    funext ppn p
    cases p <;> rfl
  exact {
    once     := hplacement ▸ h.once
    owners   := h.owners
    capacity := h.capacity
    given    := h.given
    wf       := h.wf
    placed   := hplacement ▸ h.placed
    aligned  := h.aligned
    managed  := h.managed
    counted  := h.counted
    bounds   := h.bounds
  }

omit [DecidableEq τ] [Fintype τ] in
theorem tracked_setRefs (ppn q refs : Nat) : (state.setRefs q refs).placement ppn .tracked =
    if ppn = q then (if refs = 0 then 0 else 1) else state.placement ppn .tracked := by
  by_cases hq : ppn = q
  case pos => simp [placement, setRefs, hq]
  case neg => simp [placement, setRefs, hq]

-- The references of a page and its trackers change together.
omit [DecidableEq τ] [Fintype τ] in
theorem owners_setRefs {trackers : List Nat} {refs : Nat} (h : ∀ q, state.refs q = state.trackers.count q)
    (hq : trackers.count ppn = refs) (ho : ∀ q, q ≠ ppn → trackers.count q = state.trackers.count q) :
    ∀ q, (state.setRefs ppn refs).refs q = trackers.count q := by
  intro q
  by_cases he : q = ppn
  case pos => simp [setRefs, he, hq]
  case neg => simp [setRefs, he, ho q he, h q]

omit [Fintype τ] in
theorem Pools.newTracker_moves [Fintype τ] (h : state.Pools regions) (hrefs : state.refs ppn = 0)
    (hheld : ppn ∈ (state.hands thread).pages) :
    Moves thread (.hand thread) .tracked state ({ state.setRefs ppn 1 with
      trackers := ppn :: state.trackers }.mapHand thread (·.putUncounted [ppn] 1)) := by
  have hcount : state.trackers.count ppn = 0 := h.owners ppn ▸ hrefs
  refine .ofHand (fun t he => by cases he) rfl h.wf h.capacity (owners_setRefs h.owners ?_ fun q hq => ?_)
    (fun run => .inl) (fun t => mapHand_hands_ne _) (fun q => ?_) (fun q p hp hq => ?_) ?_
  case refine_1 =>
    show (ppn :: state.trackers).count ppn = 1
    rw [List.count_cons_self, hcount]
  case refine_2 => exact List.count_cons_of_ne hq.symm
  case refine_3 =>
    show _ + (state.setRefs ppn 1).placement q .tracked = _
    have hpos := Multiset.count_pos.mpr hheld
    rw [mapHand_hands, tracked_setRefs]
    simp only [FrameHand.putUncounted, FrameHand.put, Multiset.count_sub, Multiset.coe_count, setRefs, placement]
    by_cases hq : q = ppn
    case pos =>
      subst hq
      simp [hrefs]
      omega
    case neg => simp [hq, Ne.symm hq]
  case refine_4 =>
    cases p
    case tracked => exact absurd rfl hp
    case hand t => exact absurd rfl (hq t)
    all_goals rfl
  case refine_5 =>
    rw [mapHand_hands]
    rfl

omit [Fintype τ] in
-- The last tracker of a page is dropped.
theorem Pools.dropLast_moves [Fintype τ] (h : state.Pools regions) (thread : τ) (hrefs : state.refs ppn = 1) :
    Moves thread (.hand thread) .tracked state ({ state.setRefs ppn (state.refs ppn - 1) with
      trackers := state.trackers.erase ppn }.mapHand thread (·.takeUncounted [ppn] 1)) := by
  have hcount : state.trackers.count ppn = 1 := h.owners ppn ▸ hrefs
  refine .ofHand (fun t he => by cases he) rfl h.wf h.capacity (owners_setRefs h.owners ?_ fun q hq => ?_)
    (fun run => .inl) (fun t => mapHand_hands_ne _) (fun q => ?_) (fun q p hp hq => ?_) ?_
  case refine_1 =>
    show (state.trackers.erase ppn).count ppn = state.refs ppn - 1
    rw [List.count_erase_self, hcount, hrefs]
  case refine_2 => exact List.count_erase_of_ne hq
  case refine_3 =>
    show _ + (state.setRefs ppn (state.refs ppn - 1)).placement q .tracked = _
    rw [mapHand_hands, tracked_setRefs]
    simp only [FrameHand.takeUncounted, FrameHand.take, Multiset.count_add, Multiset.coe_count, setRefs, placement]
    by_cases hq : q = ppn
    case pos =>
      subst hq
      simp [hrefs]
    case neg => simp [hq, Ne.symm hq]
  case refine_4 =>
    cases p
    case tracked => exact absurd rfl hp
    case hand t => exact absurd rfl (hq t)
    all_goals rfl
  case refine_5 =>
    rw [mapHand_hands]
    rfl

omit [DecidableEq τ] [Fintype τ] in
-- A page stays tracked while the number of its trackers changes.
theorem Pools.retrack_moves [Fintype τ] (h : state.Pools regions) (thread : τ) {trackers : List Nat} {refs : Nat}
    (hpos : state.refs ppn ≠ 0) (hrefs : refs ≠ 0) (hcount : trackers.count ppn = refs)
    (ho : ∀ q, q ≠ ppn → trackers.count q = state.trackers.count q) :
    Moves thread .tracked .raw state { state.setRefs ppn refs with trackers } where
  regions  := rfl
  wf       := h.wf
  capacity := h.capacity
  owners   := owners_setRefs h.owners hcount ho
  runs run := .inl
  ne he    := by cases he
  hands _ _ := rfl
  moved q := by
    show (state.setRefs ppn refs).placement q .tracked + state.raw.count q = _
    rw [tracked_setRefs]
    by_cases hq : q = ppn
    case pos => simp [placement, hq, hpos, hrefs]
    case neg => simp [placement, hq]
  others q p hp hq := by
    cases p
    case tracked => exact absurd rfl hp
    all_goals rfl
  balance := rfl

omit [DecidableEq τ] [Fintype τ] in
theorem Pools.intoRaw_moves [Fintype τ] (h : state.Pools regions) (thread : τ) (hrefs : state.refs ppn = 1) :
    Moves thread .tracked .raw state { state.setRefs ppn 0 with
      trackers := state.trackers.erase ppn, raw := ppn :: state.raw } where
  regions  := rfl
  wf       := h.wf
  capacity := h.capacity
  owners   := by
    have hcount : state.trackers.count ppn = 1 := h.owners ppn ▸ hrefs
    refine owners_setRefs h.owners ?_ fun q hq => ?_
    case refine_1 => rw [List.count_erase_self, hcount]
    case refine_2 => exact List.count_erase_of_ne hq
  runs run := .inl
  ne he    := by cases he
  hands _ _ := rfl
  moved q := by
    show (state.setRefs ppn 0).placement q .tracked + (ppn :: state.raw).count q = _
    rw [tracked_setRefs]
    by_cases hq : q = ppn
    case pos =>
      simp [placement, hq, hrefs]
      omega
    case neg => simp [placement, hq, Ne.symm hq]
  others q p hp hq := by
    cases p
    case tracked => exact absurd rfl hp
    case raw => exact absurd rfl hq
    all_goals rfl
  balance := rfl

omit [Fintype τ] in
theorem Pools.takeRaw_moves [Fintype τ] (h : state.Pools regions) (thread : τ) (hraw : ppn ∈ state.raw) :
    Moves thread (.hand thread) .raw state
      ({ state with raw := state.raw.erase ppn }.mapHand thread (·.takeUncounted [ppn] 1)) := by
  refine .ofHand (fun t he => by cases he) rfl h.wf h.capacity h.owners
    (fun run => .inl) (fun t => mapHand_hands_ne _) (fun q => ?_) (fun q p hp hq => ?_) ?_
  case refine_1 =>
    rw [mapHand_hands]
    show _ + (state.raw.erase ppn).count q = _ + state.raw.count q
    have hpos := List.count_pos_iff.mpr hraw
    simp only [FrameHand.takeUncounted, FrameHand.take, Multiset.count_add, Multiset.coe_count, List.count_erase,
      List.count_singleton, beq_iff_eq]
    split_ifs <;> grind
  case refine_2 =>
    cases p
    case raw => exact absurd rfl hp
    case hand t => exact absurd rfl (hq t)
    all_goals rfl
  case refine_3 =>
    rw [mapHand_hands]
    rfl

omit [Fintype τ] in
theorem Pools.giveContiguous_moves [Fintype τ] (h : state.Pools regions) (thread : τ) (hd : nextPowerOfTwo n ∣ start)
    (hm : isManagedRange regions start n) (hle : (frameRun start n : Multiset Nat) ≤ (state.hands thread).pages)
    (hcredit : nextPowerOfTwo n - n ≤ (state.hands thread).credit) :
    Moves thread (.hand thread) .contiguous state ({ state with
      contiguous := (start, n) :: state.contiguous }.mapHand thread (·.putUncounted (frameRun start n) n)) := by
  refine .ofHand (fun t he => by cases he) rfl h.wf h.capacity h.owners (fun run hr => ?_)
    (fun t => mapHand_hands_ne _) (fun ppn => ?_) (fun ppn p hp hq => ?_) ?_
  case refine_1 =>
    rcases List.mem_cons.mp hr with rfl | hr
    case inl => exact .inr ⟨hd, h.given.symm ▸ hm⟩
    case inr => exact .inl hr
  case refine_2 =>
    have hcount := count_le_of_le hle ppn
    rw [mapHand_hands]
    simp only [FrameHand.putUncounted, FrameHand.put, Multiset.count_sub, Multiset.coe_count]
    show _ + (frameRun start n ++ state.contiguous.flatMap fun run => frameRun run.1 run.2).count ppn =
      _ + (state.contiguous.flatMap fun run => frameRun run.1 run.2).count ppn
    rw [List.count_append]
    omega
  case refine_3 =>
    cases p
    case contiguous => exact absurd rfl hp
    case hand t => exact absurd rfl (hq t)
    all_goals rfl
  case refine_4 =>
    have hpadding : FrameState.padding { state with contiguous := (start, n) :: state.contiguous } =
      nextPowerOfTwo n - n + state.padding := List.sum_cons ..
    simp only [stock, mapHand_hands, FrameHand.putUncounted, FrameHand.put, length_frameRun]
    show (state.freeManagedFrames + _ + _ + _) % _ = (_ + _ + (state.allocator.freePages + state.cachedPages +
      FrameState.padding { state with contiguous := (start, n) :: state.contiguous } + state.discarded.length) + _) % _
    rw [hpadding]
    omega

omit [Fintype τ] in
theorem Pools.takeContiguous_moves [Fintype τ] (h : state.Pools regions) (thread : τ)
    (hr : (start, n) ∈ state.contiguous) :
    Moves thread (.hand thread) .contiguous state ({ state with
      contiguous := state.contiguous.erase (start, n) }.mapHand thread (·.takeUncounted (frameRun start n) n)) := by
  refine .ofHand (fun t he => by cases he) rfl h.wf h.capacity h.owners (fun run hr => .inl (List.mem_of_mem_erase hr))
    (fun t => mapHand_hands_ne _) (fun ppn => ?_) (fun ppn p hp hq => ?_) ?_
  case refine_1 =>
    have hcount : (state.contiguous.flatMap fun run => frameRun run.1 run.2).count ppn = (frameRun start n).count ppn +
        ((state.contiguous.erase (start, n)).flatMap fun run => frameRun run.1 run.2).count ppn := by
      have hperm := ((List.perm_cons_erase hr).flatMap_right fun run => frameRun run.1 run.2).count_eq ppn
      rwa [List.flatMap_cons, List.count_append] at hperm
    rw [mapHand_hands]
    simp only [FrameHand.takeUncounted, FrameHand.take, Multiset.count_add, Multiset.coe_count]
    show _ + ((state.contiguous.erase (start, n)).flatMap fun run => frameRun run.1 run.2).count ppn =
      _ + (state.contiguous.flatMap fun run => frameRun run.1 run.2).count ppn
    omega
  case refine_2 =>
    cases p
    case contiguous => exact absurd rfl hp
    case hand t => exact absurd rfl (hq t)
    all_goals rfl
  case refine_3 =>
    have hpadding : state.padding = nextPowerOfTwo n - n +
        FrameState.padding { state with contiguous := state.contiguous.erase (start, n) } := by
      have hsum := ((List.perm_cons_erase hr).map fun run => nextPowerOfTwo run.2 - run.2).sum_eq
      rwa [List.map_cons, List.sum_cons] at hsum
    simp only [stock, mapHand_hands, FrameHand.takeUncounted, length_frameRun, hpadding]
    show (state.freeManagedFrames + _ + _ + _) % _ = (_ + _ + (state.allocator.freePages + state.cachedPages +
      FrameState.padding { state with contiguous := state.contiguous.erase (start, n) } +
      state.discarded.length) + _) % _
    simp only [FrameHand.take]
    omega

omit [DecidableEq τ] in
-- What the search for a range leaves behind: ranges that are not managed were discarded, and either a range is found
-- or the allocator has none.
theorem Pools.takeManaged (thread : τ) (n attempts : Nat) {base found : List Nat} {allocator : FrameAllocator}
    (h : Pools regions { state with allocator, discarded := base ++ found }) :
    match takeManaged regions n attempts allocator found with
    | (some start, allocator', found') => ∃ allocator,
        Pools regions { state with allocator, discarded := base ++ found' } ∧ allocator.Gives allocator' start n ∧
        isManagedRange regions start n
    | (none, allocator', found') => Pools regions { state with allocator := allocator', discarded := base ++ found' } ∧
        (allocator.freePages < attempts → allocator'.alloc n = (none, allocator')) := by
  induction attempts generalizing allocator found
  case zero => exact ⟨h, fun hlt => absurd hlt (Nat.not_lt_zero _)⟩
  case succ attempts hi =>
    rw [WllOs.takeManaged]
    rcases h.wf.alloc n with hnone | ⟨start, allocator', hsome, hg⟩
    case inl =>
      have hnone : allocator.alloc n = (none, allocator) := hnone
      rw [hnone]
      exact ⟨h, fun _ => hnone⟩
    case inr =>
      have hsome : allocator.alloc n = (some start, allocator') := hsome
      have hg : allocator.Gives allocator' start n := hg
      rw [hsome]
      by_cases hm : isManagedRange regions start n
      case pos =>
        simp only [hm, if_true]
        exact ⟨allocator, h, hg, trivial⟩
      case neg =>
        simp only [hm]
        have hmoved : Pools regions { state with
            allocator := allocator', discarded := base ++ found ++ frameRun start n } :=
          h.move (h.discard_moves thread hg)
        rw [List.append_assoc] at hmoved
        have hrest := hi hmoved
        have hfree := hg.free
        have hpos : 0 < nextPowerOfTwo n := by
          obtain ⟨k, hk⟩ := nextPowerOfTwo_eq n
          exact hk ▸ Nat.two_pow_pos k
        split
        case h_1 heq =>
          simp only [Bool.false_eq_true, if_false] at heq
          rw [heq] at hrest
          exact hrest
        case h_2 heq =>
          simp only [Bool.false_eq_true, if_false] at heq
          rw [heq] at hrest
          exact ⟨hrest.1, fun hlt => hrest.2 (by omega)⟩

omit [DecidableEq τ] in
theorem Pools.centralAllocRunFrom (thread : τ) {k : Nat} {base found : List Nat} {allocator : FrameAllocator}
    (h : Pools regions { state with allocator, discarded := base ++ found }) :
    match centralAllocRunFrom regions k allocator found with
    | (some (start, pages), allocator', found') => ∃ allocator,
        Pools regions { state with allocator, discarded := base ++ found' } ∧ allocator.Gives allocator' start pages ∧
        nextPowerOfTwo pages = pages
    | (none, allocator', found') => Pools regions { state with allocator := allocator', discarded := base ++ found' } ∧
        allocator'.alloc 1 = (none, allocator') := by
  induction k generalizing allocator found
  case zero =>
    have hround := h.takeManaged thread (2 ^ 0) (allocator.freePages + 1)
    rw [WllOs.centralAllocRunFrom]
    cases hs : WllOs.takeManaged regions (2 ^ 0) (allocator.freePages + 1) allocator found
    case mk result rest =>
      rw [hs] at hround
      cases result
      case none => exact ⟨hround.1, hround.2 (Nat.lt_succ_self _)⟩
      case some start =>
        obtain ⟨allocator, hpools, hg, -⟩ := hround
        exact ⟨allocator, hpools, hg, nextPowerOfTwo_two_pow 0⟩
  case succ k hi =>
    have hround := h.takeManaged thread (2 ^ (k + 1)) (allocator.freePages + 1)
    rw [WllOs.centralAllocRunFrom]
    cases hs : WllOs.takeManaged regions (2 ^ (k + 1)) (allocator.freePages + 1) allocator found
    case mk result rest =>
      rw [hs] at hround
      cases result
      case none => exact hi hround.1
      case some start =>
        obtain ⟨allocator, hpools, hg, -⟩ := hround
        exact ⟨allocator, hpools, hg, nextPowerOfTwo_two_pow (k + 1)⟩

end FrameState

end WllOs
