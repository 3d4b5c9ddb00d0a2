import WllOs.Mm.Theorems.FrameSteps

namespace WllOs

section

variable {τ : Type} [DecidableEq τ] [Fintype τ] {cpus : Nat} {thread : τ} {g : FrameProgress cpus}
variable {regions : List (Nat × Nat)} {ppn start n : Nat}

-- The caches of the given processors are drained, one after the other.
theorem drainFrameCaches_wp (later : List (Fin cpus)) (hg : g.hand = .of []) :
    frameWp (τ := τ) regions thread (drainFrameCaches later)
      (fun _ g' => g'.hand = .of [] ∧ ∀ cpu, cpu ∈ later ∨ cpu ∈ g.progress.drained → cpu ∈ g'.progress.drained) g := by
  induction later generalizing g
  case nil => exact ⟨hg, fun cpu hc => hc.resolve_left (List.not_mem_nil)⟩
  case cons cpu later hi =>
    rw [drainFrameCaches]
    refine .bind ((drain_wp cpu hg).mono fun pages g' hg' => ?_)
    subst hg'
    refine .bind ((centralDeallocPages_wp rfl (.of_eq (List.append_nil _).symm)).mono fun _ g' hg' => ?_)
    subst hg'
    refine (hi rfl).mono fun _ g' hg' => ⟨hg'.1, fun c hc => hg'.2 c ?_⟩
    rw [List.mem_cons] at hc
    rcases hc with (rfl | hc) | hc
    case inl.inl => exact .inr (.head _)
    case inl.inr => exact .inl hc
    case inr => exact .inr (.tail _ hc)

theorem drainAllFrameCaches_wp (hg : g.hand = .of []) :
    frameWp (τ := τ) regions thread (drainAllFrameCaches : Prog (FrameInstr cpus) Unit)
      (fun _ g' => g'.hand = .of [] ∧ ∀ cpu, cpu ∈ g'.progress.drained) g :=
  (drainFrameCaches_wp (List.finRange cpus) hg).mono fun _ _ hg' =>
    ⟨hg'.1, fun cpu => hg'.2 cpu (.inl (List.mem_finRange cpu))⟩

theorem refillFrameCache_wp (cpu : Fin cpus) (hg : g.hand = .of (frameRun start n)) (hn : nextPowerOfTwo n = n) :
    frameWp (τ := τ) regions thread (refillFrameCache cpu start n)
      (fun result g' => result = some start ∧ g'.hand = .of [start]) g := by
  have hpos : 0 < n := by
    obtain ⟨k, hk⟩ := nextPowerOfTwo_eq n
    exact hn ▸ hk ▸ Nat.two_pow_pos k
  have hrun : (frameRun start n).Perm (List.range' (start + 1) (n - 1) ++ [start]) := by
    rw [frameRun, hn, ← Nat.sub_add_cancel hpos, List.range'_succ, Nat.add_sub_cancel]
    exact List.perm_append_singleton .. |>.symm
  rw [refillFrameCache]
  refine .bind ((pushAll_wp cpu hg hrun).mono fun overflow g' hg' => ?_)
  subst hg'
  refine .bind ((centralDeallocPages_wp rfl List.perm_append_comm).mono fun _ g' hg' => ?_)
  subst hg'
  exact ⟨rfl, rfl⟩

theorem allocCachedFrame_wp (cpu : Fin cpus) (hg : g.hand = .of []) :
    frameWp (τ := τ) regions thread (allocCachedFrame cpu) (fun result g' => match result with
      | some ppn => g'.hand = .of [ppn]
      | none     => g'.hand = .of [] ∧ g'.progress.failed = some 1 ∧ ∀ cpu, cpu ∈ g'.progress.drained) g := by
  rw [allocCachedFrame]
  refine .bind ((pop_wp cpu hg).mono fun result g' hg' => ?_)
  subst hg'
  cases result
  case some ppn => exact rfl
  case none =>
    refine .bind ((centralAllocRun_wp rfl).mono fun result g' hg' => ?_)
    cases result
    case some run =>
      obtain ⟨hn, rfl⟩ := hg'
      refine (refillFrameCache_wp cpu rfl hn).mono fun result g' hg' => ?_
      obtain ⟨rfl, hhand⟩ := hg'
      exact hhand
    case none =>
      have hg' : g' = _ := hg'
      subst hg'
      refine .bind ((drainAllFrameCaches_wp rfl).mono fun _ g' hg' => ?_)
      refine .bind ((centralAllocRun_wp hg'.1).mono fun result g'' hg'' => ?_)
      cases result
      case some run =>
        obtain ⟨hn, rfl⟩ := hg''
        refine (refillFrameCache_wp cpu rfl hn).mono fun result g' hg' => ?_
        obtain ⟨rfl, hhand⟩ := hg'
        exact hhand
      case none =>
        have hg'' : g'' = _ := hg''
        subst hg''
        exact ⟨hg'.1, rfl, hg'.2⟩

theorem cacheDeallocatedFrame_wp (cpu : Fin cpus) (hg : g.hand = .of [ppn]) :
    frameWp (τ := τ) regions thread (cacheDeallocatedFrame cpu ppn) (fun _ g' => g'.hand = .of []) g := by
  rw [cacheDeallocatedFrame]
  refine .bind ((pushOrFlush_wp cpu hg).mono fun flushed g' hg' => ?_)
  subst hg'
  refine (centralDeallocPages_wp rfl (.of_eq (List.append_nil _).symm)).mono fun _ g' hg' => ?_
  subst hg'
  exact rfl

theorem allocFrame_wp (cpu : Fin cpus) (hg : g.hand = .of []) :
    frameWp (τ := τ) regions thread (allocFrame cpu) (fun _ g' => g'.hand = .of []) g := by
  rw [allocFrame]
  refine .bind (begin_wp.mono fun _ g' hg' => ?_)
  subst hg'
  refine .bind ((allocCachedFrame_wp (g := ⟨g.hand, ⟨[], none⟩⟩) cpu hg).mono fun result g' hg' => ?_)
  cases result
  case none =>
    exact .bind ((refuse_wp hg'.2.1 hg'.2.2).mono fun _ g'' hg'' => hg''.trans hg'.1)
  case some ppn =>
    refine .bind ((countTaken_wp hg' (Nat.le_refl 1) (by decide)).mono fun _ g'' hg'' => ?_)
    subst hg''
    refine .bind ((newTracker_wp rfl).mono fun _ g'' hg'' => ?_)
    subst hg''
    exact rfl

theorem deallocFrameInner_wp (cpu : Fin cpus) (hg : g.hand = .uncounted [ppn]) (hm : isManagedRange regions ppn 1) :
    frameWp (τ := τ) regions thread (deallocFrameInner regions cpu ppn) (fun _ g' => g'.hand = .of []) g := by
  rw [deallocFrameInner, hm]
  refine .bind ((countFreed_wp hg).mono fun _ g' hg' => ?_)
  subst hg'
  exact cacheDeallocatedFrame_wp cpu rfl

theorem dropFrameTracker_wp (cpu : Fin cpus) (hg : g.hand = .of []) :
    frameWp (τ := τ) regions thread (dropFrameTracker regions cpu ppn) (fun _ g' => g'.hand = .of []) g := by
  rw [dropFrameTracker]
  refine .bind ((dropTracker_wp hg).mono fun old g' hg' => ?_)
  by_cases hold : old = 1
  case pos =>
    rw [if_pos hold] at hg' ⊢
    exact deallocFrameInner_wp cpu hg'.2 hg'.1
  case neg =>
    rw [if_neg hold] at hg' ⊢
    exact hg'

theorem deallocFrame_wp (cpu : Fin cpus) (hg : g.hand = .of []) :
    frameWp (τ := τ) regions thread (deallocFrame regions cpu ppn) (fun _ g' => g'.hand = .of []) g := by
  rw [deallocFrame]
  exact .bind ((takeRaw_wp hg).mono fun _ _ hg' => deallocFrameInner_wp cpu hg'.2 hg'.1)

-- Once the caches were drained for a request, that stays so.
def RoundInv (drainedCaches : Bool) (g : FrameProgress cpus) : Prop :=
  g.hand = .of [] ∧ (drainedCaches = true → ∀ cpu, cpu ∈ g.progress.drained)

theorem allocContiguousRound_wp {drainedCaches : Bool} (hn : n ≤ 2 ^ 64) (hg : RoundInv drainedCaches g) :
    frameWp (τ := τ) regions thread (allocContiguousRound regions n drainedCaches)
      (fun result g' => result.elim (RoundInv · g') fun _ => g'.hand = .of []) g := by
  rw [allocContiguousRound]
  refine .bind ((allocContiguous_wp n hg.1).mono fun result g' hg' => ?_)
  cases result
  case none =>
    have hg' : g' = _ := hg'
    subst hg'
    cases drainedCaches
    case true =>
      exact .bind ((refuse_wp (g := ⟨g.hand, { g.progress with failed := some n }⟩) rfl (hg.2 rfl)).mono
        fun _ g'' hg'' => hg''.trans hg.1)
    case false =>
      exact .bind ((drainAllFrameCaches_wp (g := ⟨g.hand, { g.progress with failed := some n }⟩) hg.1).mono
        fun _ g'' hg'' => ⟨hg''.1, fun _ => hg''.2⟩)
  case some start =>
    obtain ⟨hd, rfl⟩ := hg'
    by_cases hm : isManagedRange regions start n
    case pos =>
      simp only [hm, if_true]
      have hle : n ≤ (FrameHand.of (frameRun start n)).credit := by
        show n ≤ (frameRun start n).length
        rw [length_frameRun]
        exact le_nextPowerOfTwo n
      refine .bind ((countTaken_wp rfl hle hn).mono fun _ g' hg' => ?_)
      subst hg'
      have hrange : (FrameHand.of (frameRun start n)).countTaken n = .range start n := by
        simp only [FrameHand.countTaken, FrameHand.of, FrameHand.range, length_frameRun]
      refine .bind ((giveContiguous_wp hrange hd hm).mono fun _ g' hg' => ?_)
      subst hg'
      exact rfl
    case neg =>
      simp only [hm]
      refine .bind ((discardContiguous_wp rfl).mono fun _ g' hg' => ?_)
      subst hg'
      exact ⟨rfl, hg.2⟩

theorem allocContiguousFrames_wp (hn : n < 2 ^ 64) (hg : g.hand = .of []) :
    frameWp (τ := τ) regions thread (allocContiguousFrames regions n : Prog (FrameInstr cpus) (Option Nat))
      (fun _ g' => g'.hand = .of []) g := by
  rw [allocContiguousFrames]
  split
  case isTrue  => exact hg
  case isFalse =>
    refine .bind (begin_wp.mono fun _ g' hg' => ?_)
    subst hg'
    exact .loop RoundInv ⟨hg, fun h => by cases h⟩ (fun _ _ _ => trivial) fun _ _ => allocContiguousRound_wp hn.le

theorem deallocContiguousFrames_wp (hg : g.hand = .of []) :
    frameWp (τ := τ) regions thread (deallocContiguousFrames regions start n : Prog (FrameInstr cpus) Unit)
      (fun _ g' => g'.hand = .of []) g := by
  rw [deallocContiguousFrames]
  split
  case isTrue  => exact hg
  case isFalse =>
    refine .bind ((takeContiguous_wp hg).mono fun _ g' hg' => ?_)
    obtain ⟨hd, hm, rfl⟩ := hg'
    rw [hm]
    refine .bind ((deallocContiguous_wp rfl hd).mono fun _ g' hg' => ?_)
    subst hg'
    refine (countFreed_wp rfl).mono fun _ g' hg' => ?_
    subst hg'
    simp [FrameHand.countFreed, FrameHand.of]

theorem frameCall_wp {α : Type} {prog : Prog (FrameInstr cpus) α} (hc : FrameCall regions prog) (hg : g.hand = .of []) :
    frameWp (τ := τ) regions thread prog (fun _ g' => g'.hand = .of []) g := by
  cases hc
  case allocFrame cpu => exact allocFrame_wp cpu hg
  case cloneTracker => exact cloneTracker_wp hg
  case dropTracker cpu ppn => exact dropFrameTracker_wp cpu hg
  case intoRawPpn => exact intoRawPpn_wp hg
  case deallocFrame cpu ppn => exact deallocFrame_wp cpu hg
  case allocContiguous pages hn => exact allocContiguousFrames_wp hn hg
  case deallocContiguous => exact deallocContiguousFrames_wp hg

end

-- The ranges of memory that are found do not overlap, and they end before page 2 ^ 32.
structure ProperRegions (regions : List (Nat × Nat)) : Prop where
  disjoint : regions.Pairwise fun a b => a.2 ≤ b.1 ∨ b.2 ≤ a.1
  bounded  : ∀ region ∈ regions, region.2 ≤ 2 ^ 32

namespace FrameState

variable {τ : Type} [DecidableEq τ] [Fintype τ] {cpus : Nat} {state : FrameState τ cpus} {ranges : List (Nat × Nat)}

-- While the kernel starts, all pages are free.
structure Booted (state : FrameState τ cpus) : Prop where
  initial : state = { initial with
              allocator := state.allocator, regions := state.regions, freeManagedFrames := state.freeManagedFrames }
  wf      : state.allocator.Wf
  cover   : ∀ ppn, 0 < state.allocator.cover ppn ↔ IsManaged state.regions ppn
  pos     : ∀ region ∈ state.regions, 0 < region.1
  free    : state.freeManagedFrames % 2 ^ 64 = state.allocator.freePages % 2 ^ 64

omit [DecidableEq τ] [Fintype τ] in
theorem initial_booted : (initial : FrameState τ cpus).Booted where
  initial := rfl
  wf := {
    aligned := fun i _ block hb => by cases hb
    once    := fun ppn => by simp [FrameAllocator.cover, BuddyBlocks.total, FrameState.initial, FrameAllocator.new]
    bounds  := fun ppn hp => by
      simp [FrameAllocator.cover, BuddyBlocks.total, FrameState.initial, FrameAllocator.new] at hp
  }
  cover ppn := by
    simp [FrameAllocator.cover, BuddyBlocks.total, FrameState.initial, FrameAllocator.new, IsManaged]
  pos region hr := by cases hr
  free := by simp [FrameAllocator.freePages, BuddyBlocks.total, FrameState.initial, FrameAllocator.new]

omit [DecidableEq τ] [Fintype τ] in
theorem Booted.addFramesRange (h : state.Booted) (range : Nat × Nat)
    (hp : ProperRegions (state.addFramesRange range.1 range.2).regions) :
    (state.addFramesRange range.1 range.2).Booted := by
  rw [FrameState.addFramesRange] at hp ⊢
  by_cases hlt : max ((range.1 + pageSize - 1) / pageSize) 1 < range.2 / pageSize
  case neg =>
    simp only [if_neg hlt]
    exact h
  case pos =>
    simp only [if_pos hlt] at hp ⊢
    generalize hstart : max ((range.1 + pageSize - 1) / pageSize) 1 = startPpn at *
    generalize range.2 / pageSize = stopPpn at *
    have hpos : 0 < startPpn := by omega
    have hmem : (startPpn, stopPpn) ∈ state.regions ++ [(startPpn, stopPpn)] := by simp
    have hfresh (ppn) (hle : startPpn ≤ ppn) (hppn : ppn < stopPpn) : state.allocator.cover ppn = 0 := by
      by_contra hne
      obtain ⟨region, hr, hge, hl⟩ := (h.cover ppn).mp (Nat.pos_of_ne_zero hne)
      have := (List.pairwise_append.mp hp.disjoint).2.2 region hr _ (List.mem_singleton_self _)
      simp only at this
      omega
    have ⟨hwf, hw⟩ := h.wf.addFrameFrom (stopPpn - startPpn) hpos (hp.bounded _ hmem) (by omega) hfresh
    have hcover (ppn) : (state.allocator.addFrame startPpn stopPpn).cover ppn = state.allocator.cover ppn +
        if startPpn ≤ ppn ∧ ppn < startPpn + (stopPpn - startPpn) then 1 else 0 := by
      rw [← BuddyBlocks.span_covers]
      exact hw _ (BuddyBlocks.splits_covers ppn)
    have hfree : (state.allocator.addFrame startPpn stopPpn).freePages =
        state.allocator.freePages + (stopPpn - startPpn) := by
      have hsize := hw _ BuddyBlocks.splits_size
      rwa [BuddyBlocks.span_size] at hsize
    refine ⟨?_, hwf, fun ppn => ?_, fun region hr => ?_, ?_⟩
    case refine_1 => rw [h.initial]
    case refine_2 =>
      have hiff := h.cover ppn
      simp only [IsManaged, List.mem_append, List.mem_singleton, or_and_right, exists_or, exists_eq_left] at hiff ⊢
      rw [hcover, ← hiff]
      split_ifs <;> omega
    case refine_3 =>
      rcases List.mem_append.mp hr with hr | hr
      case inl => exact h.pos region hr
      case inr => exact List.mem_singleton.mp hr ▸ hpos
    case refine_4 =>
      have := h.free
      simp only [hfree]
      omega

omit [DecidableEq τ] [Fintype τ] in
theorem boot_booted (hp : ProperRegions (boot ranges : FrameState τ cpus).regions) :
    (boot ranges : FrameState τ cpus).Booted := by
  induction ranges using List.reverseRecOn
  case nil => exact initial_booted
  case append_singleton ranges range hi =>
    have hstep : (boot (ranges ++ [range]) : FrameState τ cpus) = (boot ranges).addFramesRange range.1 range.2 := by
      simp [boot]
    rw [hstep] at hp ⊢
    refine (hi ?_).addFramesRange range hp
    have hsub : List.Sublist (boot ranges : FrameState τ cpus).regions
        ((boot ranges : FrameState τ cpus).addFramesRange range.1 range.2).regions := by
      rw [FrameState.addFramesRange]
      split
      case isTrue  => exact List.sublist_append_left ..
      case isFalse => exact .refl _
    exact ⟨hp.disjoint.sublist hsub, fun region hr => hp.bounded region (hsub.subset hr)⟩

omit [DecidableEq τ] [Fintype τ] in
theorem Booted.placement (h : state.Booted) (ppn : Nat) (p : FramePlace τ cpus) (hp : p ≠ .buddy) :
    state.placement ppn p = 0 := by
  rw [h.initial]
  cases p
  case buddy => exact absurd rfl hp
  all_goals rfl

theorem Booted.inv (h : state.Booted) :
    Inv state.regions state fun _ => ⟨.of [], ⟨[], none⟩⟩ := by
  have hhands : state.hands = fun _ => .of [] := congrArg (·.hands) h.initial
  have hattempts : state.attempts = [] := congrArg (·.attempts) h.initial
  have hhistory : state.history = [] := congrArg (·.history) h.initial
  have howned (ppn) : state.owned ppn = 0 := by
    simp only [owned, h.placement ppn .tracked (by simp), h.placement ppn .raw (by simp),
      h.placement ppn .contiguous (by simp)]
  constructor
  case hands => exact fun t => by rw [hhands]
  case log =>
    refine ⟨hattempts ▸ Attempt.told_nil, fun ppn => ?_, ?_⟩
    case refine_1 => simp [hhistory, howned, FrameEvent.isOut]
    case refine_2 =>
      intro later earlier pages heq
      simp [hhistory] at heq
  case pools =>
    have hplaced : Placement.Placed (IsManaged state.regions) state.placement := {
      once ppn hm      := ⟨.buddy, Nat.le_antisymm (h.wf.once ppn) ((h.cover ppn).mpr hm), h.placement ppn⟩
      outside ppn hm p := by
        by_cases hp : p = .buddy
        case pos => exact hp ▸ Nat.eq_zero_of_not_pos (mt (h.cover ppn).mp hm)
        case neg => exact h.placement ppn p hp
    }
    exact {
      once     := hplaced.once
      owners   := by rw [h.initial]; exact fun _ => rfl
      capacity := by rw [h.initial]; exact fun _ => Nat.zero_le _
      given    := rfl
      wf       := h.wf
      placed   := hplaced
      aligned  := by rw [h.initial]; exact fun run hr => by cases hr
      managed  := by rw [h.initial]; exact fun run hr => by cases hr
      bounds   := fun ppn hm => h.wf.bounds ppn ((h.cover ppn).mpr hm)
      counted  := by
        have hstock : state.stock = state.allocator.freePages := by
          rw [h.initial]
          simp [stock, cachedPages, padding, FrameState.initial, LocalFrameCache.empty]
        rw [Counted, hhands, hstock]
        simpa [FrameHand.of] using h.free
    }

end FrameState

-- All requests of all threads, in any interleaving.
theorem frames_conserved {τ : Type} [DecidableEq τ] [Fintype τ] {cpus : Nat} (ranges : List (Nat × Nat))
    (hp : ProperRegions (FrameState.boot ranges : FrameState τ cpus).regions)
    (progs : τ → Prog (FrameInstr cpus) Unit)
    (hc : ∀ t, (progs t).Calls (FrameCall (FrameState.boot ranges : FrameState τ cpus).regions))
    (config : Config (FrameInstr cpus) (FrameState τ cpus) τ)
    (hr : Config.Reachable FrameInstr.machine (fun _ _ _ => True) ⟨.boot ranges, progs⟩ config) :
    config.state.Conserved (FrameState.boot ranges : FrameState τ cpus).regions ∧ config.state.Counted ∧
    config.state.HandedOutOnce ∧ config.state.RefusedWhenExhausted ∧
    ∀ t, config.prog t = .ret () → config.state.hands t = .empty := by
  have hsound : (frameProtocol (FrameState.boot ranges : FrameState τ cpus).regions).Sound
      (fun _ g => g.hand = .of []) ⟨.boot ranges, progs⟩ (fun _ => ⟨.of [], ⟨[], none⟩⟩) := {
    inv := (FrameState.boot_booted hp).inv
    wp  := fun t => .calls (hc t) rfl fun hc hg => frameCall_wp hc hg
  }
  have ⟨values, h⟩ := Protocol.sound hsound (fun _ _ _ _ _ => trivial) hr
  refine ⟨h.inv.pools.toConserved, h.inv.pools.counted, h.inv.log.handedOut, h.inv.log.told.justified, fun t ht => ?_⟩
  have hidle := h.wp t
  rw [ht] at hidle
  exact (h.inv.hands t).symm.trans hidle

-- One page out of four.
def allocOneFrame : Prog (FrameInstr 1) Unit := do
  let _ ← allocFrame (0 : Fin 1)
  pure ()

theorem allocOneFrame_calls : allocOneFrame.Calls (FrameCall [(4, 8)]) :=
  .call (.allocFrame 0) fun _ => .done

def fourFrames : FrameState Unit 1 :=
  .boot [(0x4000, 0x8000)]

theorem fourFrames_proper : ProperRegions fourFrames.regions where
  disjoint := List.pairwise_singleton ..
  bounded  := by decide

theorem allocated_conserved : ∃ config : Config (FrameInstr 1) (FrameState Unit 1) Unit,
    config.state.trackers = [4] ∧ config.state.Conserved [(4, 8)] ∧ config.state.Counted := by
  obtain ⟨config, hr, hseen⟩ := Config.Reachable.of_run_view FrameInstr.machine
    ⟨fourFrames, fun _ : Unit => allocOneFrame⟩ (·.state.trackers) [4] (List.replicate 6 ()) rfl
  have h := frames_conserved [(0x4000, 0x8000)] fourFrames_proper _ (fun _ => allocOneFrame_calls) config hr
  exact ⟨config, hseen, h.1, h.2.1⟩

-- Three pages out of four, for which the allocator takes four.
def allocThreeFrames : Prog (FrameInstr 1) Unit := do
  let _ ← @allocContiguousFrames 1 [(4, 8)] 3
  pure ()

-- While a processor refills its cache, the pages are nowhere, and the page on top of three is counted as free for as
-- long as they are in use.
theorem frames_in_transit :
    (∃ config : Config (FrameInstr 1) (FrameState Unit 1) Unit, Config.Reachable FrameInstr.machine (fun _ _ _ => True)
      ⟨fourFrames, fun _ => allocOneFrame⟩ config ∧ IsManaged fourFrames.regions 5 ∧
      ∀ place, (∀ t, place ≠ .hand t) → config.state.placement 5 place = 0) ∧
    ∃ config : Config (FrameInstr 1) (FrameState Unit 1) Unit, Config.Reachable FrameInstr.machine (fun _ _ _ => True)
      ⟨fourFrames, fun _ => allocThreeFrames⟩ config ∧ config.state.hands () = .empty ∧
      config.state.freeManagedFrames ≠ config.state.allocator.freePages + config.state.cachedPages := by
  constructor
  case left =>
    obtain ⟨config, hr, hseen⟩ := Config.Reachable.of_run_view FrameInstr.machine
      ⟨fourFrames, fun _ : Unit => allocOneFrame⟩ (fun config => (config.state.allocator.cover 5,
        (config.state.caches 0).frames, config.state.refs 5, config.state.raw, config.state.contiguous,
        config.state.discarded)) (0, [], 0, [], [], []) (List.replicate 3 ()) rfl
    simp only [Prod.mk.injEq] at hseen
    obtain ⟨hbuddy, hcache, hrefs, hraw, hcontiguous, hdiscarded⟩ := hseen
    refine ⟨config, hr, ⟨(4, 8), .head _, by decide⟩, fun place hplace => ?_⟩
    cases place
    case buddy => exact hbuddy
    case cache cpu =>
      rw [Subsingleton.elim cpu 0]
      simp only [FrameState.placement, hcache]
      decide
    case tracked => simp only [FrameState.placement, hrefs]; decide
    case raw => simp only [FrameState.placement, hraw]; decide
    case contiguous => simp only [FrameState.placement, hcontiguous]; decide
    case discarded => simp only [FrameState.placement, hdiscarded]; decide
    case hand t => exact absurd rfl (hplace t)
  case right =>
    obtain ⟨config, hr, hseen⟩ := Config.Reachable.of_run_view FrameInstr.machine
      ⟨fourFrames, fun _ : Unit => allocThreeFrames⟩ (fun config => (config.state.hands (),
        config.state.freeManagedFrames, config.state.allocator.freePages, (config.state.caches 0).frames))
      (.empty, 1, 0, []) (List.replicate 5 ()) rfl
    simp only [Prod.mk.injEq] at hseen
    obtain ⟨hhand, hfree, hbuddy, hcache⟩ := hseen
    refine ⟨config, hr, hhand, ?_⟩
    have hcached : config.state.cachedPages = 0 := by simp [FrameState.cachedPages, hcache]
    rw [hfree, hbuddy, hcached]
    decide

end WllOs
