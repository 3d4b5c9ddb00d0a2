import WllOs.Mm.Theorems.FrameCaches

namespace WllOs

-- What a thread holds, and what it has gone through for its request.
structure FrameProgress (cpus : Nat) where
  hand : FrameHand
  progress : Attempt.Progress (Fin cpus) Nat

namespace FrameHand

-- Pages that are counted as free.
def of (pages : List Nat) : FrameHand where
  pages  := pages
  credit := pages.length
  debt   := 0

variable {pages rest taken : List Nat}

theorem of_put (h : pages.Perm (taken ++ rest)) : (of pages).put taken = of rest := by
  have hpages : (pages : Multiset Nat) - (taken : Multiset Nat) = (rest : Multiset Nat) := by
    rw [Multiset.coe_eq_coe.mpr h, ← Multiset.coe_add, add_tsub_cancel_left]
  have hlength : pages.length - taken.length = rest.length := by
    rw [h.length_eq, List.length_append, Nat.add_sub_cancel_left]
  simp only [put, of, hpages, hlength]

theorem of_take (pages taken : List Nat) : (of pages).take taken = of (pages ++ taken) := by
  simp [take, of]

theorem le_of (h : pages.Perm (taken ++ rest)) : (taken : Multiset Nat) ≤ (of pages).pages := by
  simp only [of]
  rw [Multiset.coe_eq_coe.mpr h, ← Multiset.coe_add]
  exact Multiset.le_add_right ..

end FrameHand

namespace FrameState

variable {τ : Type} [DecidableEq τ] {cpus : Nat} {state state' : FrameState τ cpus} {thread : τ}
variable {values : τ → FrameProgress cpus} {g : FrameProgress cpus} {hand : FrameHand} {pages : List Nat}
variable {attempt : Attempt τ (Fin cpus) Nat FrameAllocator} {progress : Attempt.Progress (Fin cpus) Nat}

-- How often a page is handed out.
def owned (state : FrameState τ cpus) (ppn : Nat) : Nat :=
  state.placement ppn .tracked + state.placement ppn .raw + state.placement ppn .contiguous

structure Log (state : FrameState τ cpus) (values : τ → FrameProgress cpus) : Prop where
  told      : Attempt.Told Exhausted state.attempts fun t => (values t).progress
  out       : ∀ ppn, FrameEvent.isOut ppn state.history = true ↔ 0 < state.owned ppn
  handedOut : state.HandedOutOnce

theorem progress_update (values : τ → FrameProgress cpus) (thread : τ) (g : FrameProgress cpus) :
    (fun t => (Function.update values thread g t).progress) =
      Function.update (fun t => (values t).progress) thread g.progress :=
  Function.comp_update FrameProgress.progress values thread g

theorem Log.told_same (h : state.Log values) (hv : values thread = g) :
    Attempt.Told Exhausted state.attempts fun t => (Function.update values thread { g with hand } t).progress := by
  have hp : (values thread).progress = g.progress := congrArg FrameProgress.progress hv
  rw [progress_update]
  exact h.told.same hp

-- A step of which nothing is recorded.
theorem Log.quiet (h : state.Log values) (hv : values thread = g) (ha : state'.attempts = state.attempts)
    (hs : state'.history = state.history) (ho : state'.owned = state.owned) :
    state'.Log (Function.update values thread { g with hand }) where
  told      := ha ▸ h.told_same hv
  out ppn   := by rw [hs, ho]; exact h.out ppn
  handedOut := by rw [HandedOutOnce, hs]; exact h.handedOut

-- A step that only tells what its thread goes through.
theorem Log.tell (h : state.Log values) (ha : state'.attempts = attempt :: state.attempts)
    (hs : state'.history = state.history) (ho : state'.owned = state.owned)
    (ht : Attempt.Told Exhausted (attempt :: state.attempts)
      (Function.update (fun t => (values t).progress) thread progress)) :
    state'.Log (Function.update values thread ⟨hand, progress⟩) where
  told      := by rw [ha, progress_update]; exact ht
  out ppn   := by rw [hs, ho]; exact h.out ppn
  handedOut := by rw [HandedOutOnce, hs]; exact h.handedOut

theorem Log.handOut (h : state.Log values) (hv : values thread = g) (ha : state'.attempts = state.attempts)
    (hs : state'.history = .handedOut pages :: state.history)
    (ho : ∀ ppn, state'.owned ppn = state.owned ppn + pages.count ppn) (hfree : ∀ ppn ∈ pages, state.owned ppn = 0) :
    state'.Log (Function.update values thread { g with hand }) where
  told    := ha ▸ h.told_same hv
  out ppn := by
    have hpos : 0 < pages.count ppn ↔ ppn ∈ pages := List.count_pos_iff
    rw [hs, FrameEvent.isOut, Bool.or_eq_true, decide_eq_true_iff, h.out ppn, ho, ← hpos]
    omega
  handedOut later earlier pages' heq ppn hp := by
    rw [hs] at heq
    cases later
    case nil =>
      obtain ⟨he, rfl⟩ := List.cons.inj heq
      cases he
      rw [← Bool.not_eq_true, h.out ppn, hfree ppn hp]
      exact Nat.lt_irrefl 0
    case cons => exact h.handedOut _ earlier pages' (List.cons.inj heq).2 ppn hp

theorem Log.release (h : state.Log values) (hv : values thread = g) (ha : state'.attempts = state.attempts)
    (hs : state'.history = .released pages :: state.history)
    (ho : ∀ ppn, state'.owned ppn + pages.count ppn = state.owned ppn)
    (hfree : ∀ ppn ∈ pages, state'.owned ppn = 0) :
    state'.Log (Function.update values thread { g with hand }) where
  told    := ha ▸ h.told_same hv
  out ppn := by
    have hsum := ho ppn
    rw [hs, FrameEvent.isOut, Bool.and_eq_true, Bool.not_eq_true', decide_eq_false_iff_not, h.out ppn]
    by_cases hp : ppn ∈ pages
    case pos => simp [hp, hfree ppn hp]
    case neg =>
      rw [List.count_eq_zero_of_not_mem hp] at hsum
      simp [hp, ← hsum]
  handedOut later earlier pages' heq ppn hp := by
    rw [hs] at heq
    cases later
    case nil  => cases (List.cons.inj heq).1
    case cons => exact h.handedOut _ earlier pages' (List.cons.inj heq).2 ppn hp

end FrameState

namespace LocalFrameCache

variable {cache : LocalFrameCache} {pages : List Nat}

-- A cache that has taken some pages and given others back.
structure Exchanges (cache cache' : LocalFrameCache) (pages back : List Nat) : Prop where
  perm     : (back ++ cache'.frames).Perm (pages ++ cache.frames)
  capacity : cache'.frames.length ≤ FRAME_CACHE_CAPACITY

theorem push_cases (cache : LocalFrameCache) (ppn : Nat) :
    cache.push ppn = (false, cache) ∧ cache.frames.length = FRAME_CACHE_CAPACITY ∨
    cache.push ppn = (true, ⟨ppn :: cache.frames⟩) ∧ cache.frames.length ≠ FRAME_CACHE_CAPACITY := by
  rw [push]
  split
  case isTrue h  => exact .inl ⟨rfl, h⟩
  case isFalse h => exact .inr ⟨rfl, h⟩

theorem pushAll_exchanges (pages : List Nat) (h : cache.frames.length ≤ FRAME_CACHE_CAPACITY) :
    cache.Exchanges (pushAll pages cache).2 pages (pushAll pages cache).1 := by
  induction pages generalizing cache
  case nil => exact ⟨.refl _, h⟩
  case cons ppn pages hi =>
    rcases cache.push_cases ppn with ⟨hp, -⟩ | ⟨hp, hne⟩
    case inl =>
      have hrest := hi h
      simp only [pushAll, hp]
      exact ⟨hrest.perm.cons ppn, hrest.capacity⟩
    case inr =>
      have hrest := @hi ⟨ppn :: cache.frames⟩ (Nat.lt_of_le_of_ne h hne)
      simp only [pushAll, hp]
      exact ⟨hrest.perm.trans List.perm_middle, hrest.capacity⟩

theorem pushOrFlush_exchanges (ppn : Nat) (h : cache.frames.length ≤ FRAME_CACHE_CAPACITY) :
    cache.Exchanges (cache.pushOrFlush ppn).2 [ppn] (cache.pushOrFlush ppn).1 := by
  rcases cache.push_cases ppn with ⟨hp, hfull⟩ | ⟨hp, hne⟩
  case inl =>
    have hroom : (cache.frames.drop FRAME_CACHE_FLUSH).length < FRAME_CACHE_CAPACITY := by
      rw [List.length_drop, hfull]
      decide
    have hpush : (push ⟨cache.frames.drop FRAME_CACHE_FLUSH⟩ ppn).2 = ⟨ppn :: cache.frames.drop FRAME_CACHE_FLUSH⟩ := by
      rw [push, if_neg (Nat.ne_of_lt hroom)]
    simp only [pushOrFlush, hp, drain, hpush]
    refine ⟨List.perm_middle.trans ?_, hroom⟩
    rw [List.take_append_drop, List.singleton_append]
  case inr =>
    simp only [pushOrFlush, hp]
    exact ⟨.refl _, Nat.lt_of_le_of_ne h hne⟩

theorem drain_all (h : cache.frames.length ≤ FRAME_CACHE_CAPACITY) :
    cache.drain FRAME_CACHE_CAPACITY = (cache.frames, empty) := by
  rw [drain, List.take_of_length_le h, List.drop_of_length_le h, empty]

end LocalFrameCache

open FrameState FrameInstr

variable {τ : Type} [DecidableEq τ] [Fintype τ] {cpus : Nat} {state state' : FrameState τ cpus} {thread : τ}
variable {values : τ → FrameProgress cpus} {g : FrameProgress cpus} {regions : List (Nat × Nat)}
variable {place place' : FramePlace τ cpus} {pages rest : List Nat} {ppn start n : Nat}

structure FrameState.Inv (regions : List (Nat × Nat)) (state : FrameState τ cpus) (values : τ → FrameProgress cpus) :
    Prop where
  pools : state.Pools regions
  log   : state.Log values
  hands : ∀ t, (values t).hand = state.hands t

theorem FrameState.Inv.next (h : Inv regions state values) (hp : state'.Pools regions)
    (hhands : ∀ t, t ≠ thread → state'.hands t = state.hands t)
    (hlog : state'.Log (Function.update values thread g)) (hg : g.hand = state'.hands thread) :
    Inv regions state' (Function.update values thread g) where
  pools := hp
  log   := hlog
  hands t := by
    by_cases ht : t = thread
    case pos =>
      subst ht
      rw [Function.update_self, hg]
    case neg => rw [Function.update_of_ne ht, h.hands, hhands t ht]

theorem FrameState.Inv.step (h : Inv regions state values) (hm : Moves thread place place' state state')
    (hlog : state'.Log (Function.update values thread g)) (hg : g.hand = state'.hands thread) :
    Inv regions state' (Function.update values thread g) :=
  h.next (h.pools.move hm) hm.hands hlog hg

-- A step of which nothing is recorded, and that only changes what the thread holds.
theorem FrameState.Inv.quiet (h : Inv regions state values) (hv : values thread = g)
    (hm : Moves thread place place' state state') (ha : state'.attempts = state.attempts)
    (hs : state'.history = state.history) (ho : state'.owned = state.owned) {hand : FrameHand}
    (hhand : state'.hands thread = hand) : Inv regions state' (Function.update values thread { g with hand }) :=
  h.step hm (h.log.quiet hv ha hs ho) hhand.symm

def frameProtocol (regions : List (Nat × Nat)) :
    Protocol (machine : Machine (FrameInstr cpus) (FrameState τ cpus) τ) (FrameProgress cpus) where
  inv := Inv regions

-- What a step of a thread leaves the thread with.
abbrev frameWp (regions : List (Nat × Nat)) (thread : τ) {α : Type} (prog : Prog (FrameInstr cpus) α)
    (post : α → FrameProgress cpus → Prop) (g : FrameProgress cpus) : Prop :=
  (frameProtocol regions).wp thread prog post g

theorem frameWp.total {β : Type} {instr : FrameInstr cpus β} {post : β → FrameProgress cpus → Prop}
    {f : FrameState τ cpus → β × FrameState τ cpus} (hx : ∀ state, machine.exec thread instr state = some (f state))
    (h : ∀ state values, Inv regions state values → g.hand = state.hands thread → values thread = g →
      ∃ g', Inv regions (f state).2 (Function.update values thread g') ∧ post (f state).1 g') :
    frameWp regions thread (liftM instr) post g :=
  Protocol.wp.total hx trivial fun state values hinv hv _ => h state values hinv (by rw [← hinv.hands, hv]) hv

-- An instruction that may stop the kernel.
theorem frameWp.guarded {β : Type} {instr : FrameInstr cpus β} {post : β → FrameProgress cpus → Prop}
    (h : ∀ state values b state', Inv regions state values → g.hand = state.hands thread → values thread = g →
      machine.exec thread instr state = some (b, state') →
      ∃ g', Inv regions state' (Function.update values thread g') ∧ post b g') :
    frameWp regions thread (liftM instr) post g :=
  Protocol.wp.instr trivial fun state values b state' hinv hv _ hx =>
    h state values b state' hinv (by rw [← hinv.hands, hv]) hv hx

-- A thread exchanges pages that are counted as free with the cache of a processor.
theorem FrameState.Pools.exchange (h : state.Pools regions) (cpu : Fin cpus) (cache : LocalFrameCache)
    (f : FrameHand → FrameHand) {held held' : List Nat} (hh : state.hands thread = .of held)
    (hf : f (.of held) = .of held') (hperm : (held' ++ cache.frames).Perm (held ++ (state.caches cpu).frames))
    (hcap : cache.frames.length ≤ FRAME_CACHE_CAPACITY) :
    Moves thread (.hand thread) (.cache cpu) state ((state.setCache cpu cache).mapHand thread f) ∧
    ((state.setCache cpu cache).mapHand thread f).hands thread = .of held' := by
  have hhand : f (state.hands thread) = .of held' := by rw [hh, hf]
  have hlength := hperm.length_eq
  rw [List.length_append, List.length_append] at hlength
  refine ⟨h.setCache_moves hcap ?_ ?_ ?_, (mapHand_hands f).trans hhand⟩
  case refine_1 =>
    rw [hhand, hh]
    simpa [FrameHand.of] using Multiset.coe_eq_coe.mpr hperm
  case refine_2 =>
    rw [hhand, hh]
    exact hlength
  case refine_3 => rw [hhand, hh]; rfl

theorem FrameState.Inv.same (h : Inv regions state values) (hv : values thread = g) :
    Inv regions state (Function.update values thread g) := by
  rwa [← hv, Function.update_eq_self]

theorem pop_wp (cpu : Fin cpus) (hg : g.hand = .of []) :
    frameWp (τ := τ) regions thread (liftM (pop cpu))
      (fun result g' => g' = { g with hand := .of result.toList }) g := by
  refine frameWp.total (fun _ => rfl) fun state values hinv hh hv => ?_
  cases hframes : (state.caches cpu).frames
  case nil =>
    have hexec : popExec thread cpu state = (none, state) := by
      simp only [popExec, LocalFrameCache.pop, hframes]
    rw [hexec]
    exact ⟨g, hinv.same hv, by rw [Option.toList_none, ← hg]⟩
  case cons ppn frames =>
    have hexec : popExec thread cpu state =
        (some ppn, (state.setCache cpu ⟨frames⟩).mapHand thread (·.take [ppn])) := by
      simp only [popExec, LocalFrameCache.pop, hframes]
    have hcap := hinv.pools.capacity cpu
    rw [hframes] at hcap
    obtain ⟨hm, hhand⟩ := hinv.pools.exchange cpu ⟨frames⟩ (·.take [ppn]) (hh.symm.trans hg)
      (FrameHand.of_take [] [ppn]) (by rw [hframes]; exact .refl _) (Nat.le_of_succ_le hcap)
    rw [hexec]
    exact ⟨{ g with hand := .of [ppn] }, hinv.quiet hv hm rfl rfl rfl hhand, rfl⟩

theorem drain_wp (cpu : Fin cpus) (hg : g.hand = .of []) :
    frameWp (τ := τ) regions thread (liftM (drain cpu))
      (fun pages g' => g' = ⟨.of pages, cpu :: g.progress.drained, none⟩) g := by
  refine frameWp.total (fun _ => rfl) fun state values hinv hh hv => ?_
  have hexec : drainExec thread cpu state = ((state.caches cpu).frames, (((state.setCache cpu .empty).mapHand thread
      (·.take (state.caches cpu).frames))).tell (.drained thread cpu)) := by
    simp only [drainExec, LocalFrameCache.drain_all (hinv.pools.capacity cpu)]
  obtain ⟨hm, hhand⟩ := hinv.pools.exchange cpu .empty (·.take (state.caches cpu).frames)
    (hh.symm.trans hg) (FrameHand.of_take [] _) (by simp [LocalFrameCache.empty]) (Nat.zero_le _)
  rw [hexec]
  exact ⟨⟨.of (state.caches cpu).frames, cpu :: g.progress.drained, none⟩, hinv.step (hm.tell _)
    (hinv.log.tell rfl rfl rfl (hinv.log.told.drain (by rw [hv]) cpu)) hhand.symm, rfl⟩

theorem pushAll_wp (cpu : Fin cpus) {held : List Nat} (hg : g.hand = .of held) (hp : held.Perm (pages ++ rest)) :
    frameWp (τ := τ) regions thread (liftM (pushAll cpu pages))
      (fun overflow g' => g' = { g with hand := .of (rest ++ overflow) }) g := by
  refine frameWp.total (fun _ => rfl) fun state values hinv hh hv => ?_
  have he := LocalFrameCache.pushAll_exchanges pages (hinv.pools.capacity cpu)
  obtain ⟨hm, hhand⟩ := hinv.pools.exchange cpu _ (fun hand => (hand.put pages).take
    (LocalFrameCache.pushAll pages (state.caches cpu)).1) (hh.symm.trans hg)
    (by rw [FrameHand.of_put hp, FrameHand.of_take]) (by
      rw [List.append_assoc]
      refine (he.perm.append_left rest).trans ?_
      rw [← List.append_assoc]
      exact (List.perm_append_comm.trans hp.symm).append_right _) he.capacity
  exact ⟨_, hinv.quiet hv hm rfl rfl rfl hhand, rfl⟩

theorem pushOrFlush_wp (cpu : Fin cpus) (hg : g.hand = .of [ppn]) :
    frameWp (τ := τ) regions thread (liftM (pushOrFlush cpu ppn))
      (fun flushed g' => g' = { g with hand := .of flushed }) g := by
  refine frameWp.total (fun _ => rfl) fun state values hinv hh hv => ?_
  have he := LocalFrameCache.pushOrFlush_exchanges ppn (hinv.pools.capacity cpu)
  obtain ⟨hm, hhand⟩ := hinv.pools.exchange cpu _ (fun hand => (hand.put [ppn]).take
    ((state.caches cpu).pushOrFlush ppn).1) (hh.symm.trans hg)
    (by rw [FrameHand.of_put (.refl [ppn]), FrameHand.of_take]; rfl) he.perm he.capacity
  exact ⟨_, hinv.quiet hv hm rfl rfl rfl hhand, rfl⟩

theorem centralAllocRun_wp (hg : g.hand = .of []) :
    frameWp (τ := τ) regions thread (liftM (@FrameInstr.centralAllocRun cpus FRAME_CACHE_REFILL))
      (fun result g' => match result with
      | some (start, pages) => nextPowerOfTwo pages = pages ∧ g' = { g with hand := .of (frameRun start pages) }
      | none                => g' = ⟨g.hand, { g.progress with failed := some 1 }⟩) g := by
  refine frameWp.total (fun _ => rfl) fun state values hinv hh hv => ?_
  have hinit : Pools regions { state with discarded := state.discarded ++ [] } := by
    rw [List.append_nil]
    exact hinv.pools
  have hrun := hinit.centralAllocRunFrom thread (k := Nat.log2 FRAME_CACHE_REFILL)
  have heq : WllOs.centralAllocRun state.regions FRAME_CACHE_REFILL state.allocator =
    WllOs.centralAllocRunFrom regions (Nat.log2 FRAME_CACHE_REFILL) state.allocator [] := by
    rw [hinv.pools.given]
    rfl
  rw [centralAllocRunExec, heq]
  cases hr : WllOs.centralAllocRunFrom regions (Nat.log2 FRAME_CACHE_REFILL) state.allocator []
  case mk result rest =>
    obtain ⟨allocator', found⟩ := rest
    rw [hr] at hrun
    cases result
    case none =>
      obtain ⟨hpools, hnone⟩ := hrun
      have hexhausted : Exhausted 1 allocator' := by rw [Exhausted, hnone]
      exact ⟨⟨g.hand, { g.progress with failed := some 1 }⟩, hinv.next (hpools.tell (.failed thread 1 allocator'))
        (fun _ _ => rfl) (hinv.log.tell rfl rfl rfl (hinv.log.told.fail (by rw [hv]) hexhausted)) hh, rfl⟩
    case some run =>
      obtain ⟨start, pages⟩ := run
      obtain ⟨allocator, hpools, hgives, hpow⟩ := hrun
      have hm := hpools.take_moves thread hgives
      have hhand : FrameHand.take (state.hands thread) (frameRun start pages) = .of (frameRun start pages) := by
        rw [← hh, hg, FrameHand.of_take, List.nil_append]
      have hrun : List.range' start pages = frameRun start pages := by rw [frameRun, hpow]
      simp only [hrun]
      exact ⟨{ g with hand := .of (frameRun start pages) }, hinv.next (hpools.move hm) hm.hands
        (hinv.log.quiet hv rfl rfl rfl) ((mapHand_hands _).trans hhand).symm, hpow, rfl⟩

theorem centralDeallocPages_wp {held : List Nat} (hg : g.hand = .of held) (hp : held.Perm (pages ++ rest)) :
    frameWp (τ := τ) regions thread (WllOs.centralDeallocPages pages : Prog (FrameInstr cpus) Unit)
      (fun _ g' => g' = { g with hand := .of rest }) g := by
  rw [WllOs.centralDeallocPages]
  split
  case isTrue he =>
    have hrest : FrameHand.of held = .of rest := by
      have hperm : held.Perm rest := by rwa [List.isEmpty_iff.mp he, List.nil_append] at hp
      simp only [FrameHand.of, Multiset.coe_eq_coe.mpr hperm, hperm.length_eq]
    show g = _
    rw [← hrest, ← hg]
  case isFalse =>
    refine frameWp.total (fun _ => rfl) fun state values hinv hh hv => ?_
    have hle : (pages : Multiset Nat) ≤ (state.hands thread).pages := by
      rw [← hh, hg]
      exact FrameHand.le_of hp
    have htakes := hinv.pools.wf.deallocPages (hinv.pools.held_once hle) (hinv.pools.held_bounds hle)
    have hlength := hp.length_eq
    rw [List.length_append] at hlength
    have hm := hinv.pools.give_moves thread (f := (·.put pages)) hle htakes rfl (by
      rw [← hh, hg]
      simp only [FrameHand.put, FrameHand.of]
      omega) (Nat.le_refl _)
    have hhand : (centralDeallocPagesExec thread pages state).hands thread = .of rest := by
      rw [centralDeallocPagesExec, mapHand_hands, ← FrameHand.of_put hp, ← hg, hh]
    exact ⟨_, hinv.quiet hv hm rfl rfl rfl hhand, rfl⟩

-- Pages that are no longer counted as free, or not yet.
def FrameHand.uncounted (pages : List Nat) : FrameHand where
  pages  := pages
  credit := 0
  debt   := 0

-- A range whose padding stays counted.
def FrameHand.range (start n : Nat) : FrameHand where
  pages  := frameRun start n
  credit := nextPowerOfTwo n - n
  debt   := 0

theorem begin_wp : frameWp (τ := τ) regions thread (liftM (@FrameInstr.begin cpus))
    (fun _ g' => g' = ⟨g.hand, [], none⟩) g := by
  refine frameWp.total (fun _ => rfl) fun state values hinv hh hv => ?_
  exact ⟨⟨g.hand, [], none⟩, hinv.next (hinv.pools.tell (.began thread)) (fun _ _ => rfl)
    (hinv.log.tell rfl rfl rfl (hinv.log.told.begin thread)) hh, rfl⟩

theorem refuse_wp (hf : g.progress.failed = some n) (hd : ∀ cpu, cpu ∈ g.progress.drained) :
    frameWp (τ := τ) regions thread (liftM (@FrameInstr.refuse cpus n)) (fun _ g' => g'.hand = g.hand) g := by
  refine frameWp.total (fun _ => rfl) fun state values hinv hh hv => ?_
  exact ⟨⟨g.hand, { g.progress with failed := none }⟩, hinv.next (hinv.pools.tell (.refused thread n))
    (fun _ _ => rfl) (hinv.log.tell rfl rfl rfl (hinv.log.told.refuse (by rw [hv]) hf hd)) hh, rfl⟩

theorem countTaken_wp {hand : FrameHand} (hg : g.hand = hand) (hc : n ≤ hand.credit) (hn : n ≤ 2 ^ 64) :
    frameWp (τ := τ) regions thread (liftM (@FrameInstr.countTaken cpus n))
      (fun _ g' => g' = { g with hand := hand.countTaken n }) g := by
  refine frameWp.total (fun _ => rfl) fun state values hinv hh hv => ?_
  have hcounted : ((state.freeManagedFrames + (2 ^ 64 - n)) % 2 ^ 64 + ((state.hands thread).countTaken n).debt +
      (state.hands thread).credit) % 2 ^ 64 = (state.freeManagedFrames + (state.hands thread).debt +
      ((state.hands thread).countTaken n).credit) % 2 ^ 64 := by
    rw [← hh, hg]
    simp only [FrameHand.countTaken]
    omega
  have hm := hinv.pools.count_moves _ (·.countTaken n) rfl hcounted
  exact ⟨_, hinv.quiet hv hm rfl rfl rfl ((mapHand_hands _).trans (by rw [← hg, hh])), rfl⟩

-- Pages that are in use again, or that were put into the free lists before.
theorem countFreed_wp {hand : FrameHand} (hg : g.hand = hand) :
    frameWp (τ := τ) regions thread (liftM (@FrameInstr.countFreed cpus n))
      (fun _ g' => g' = { g with hand := hand.countFreed n }) g := by
  refine frameWp.total (fun _ => rfl) fun state values hinv hh hv => ?_
  have hcounted : ((state.freeManagedFrames + n) % 2 ^ 64 + ((state.hands thread).countFreed n).debt +
      (state.hands thread).credit) % 2 ^ 64 = (state.freeManagedFrames + (state.hands thread).debt +
      ((state.hands thread).countFreed n).credit) % 2 ^ 64 := by
    simp only [FrameHand.countFreed]
    omega
  have hm := hinv.pools.count_moves _ (·.countFreed n) rfl hcounted
  exact ⟨_, hinv.quiet hv hm rfl rfl rfl ((mapHand_hands _).trans (by rw [← hg, hh])), rfl⟩

omit [DecidableEq τ] in
theorem FrameState.Pools.owned_of_held (h : state.Pools regions) (hp : ppn ∈ (state.hands thread).pages) :
    state.owned ppn = 0 := by
  have hpos : 0 < state.placement ppn (.hand thread) := Multiset.count_pos.mpr hp
  simp only [owned]
  rw [h.placed.eq_zero hpos (q := .tracked) (by simp), h.placed.eq_zero hpos (q := .raw) (by simp),
    h.placed.eq_zero hpos (q := .contiguous) (by simp)]

-- The places of pages that are handed out.
inductive FramePlace.Owned : FramePlace τ cpus → Prop
  | tracked : Owned .tracked
  | raw : Owned .raw
  | contiguous : Owned .contiguous

omit [DecidableEq τ] [Fintype τ] in
theorem FrameState.Moves.owned (hm : Moves thread (.hand thread) place state state') (hp : place.Owned) (ppn : Nat) :
    state'.owned ppn + (state'.hands thread).pages.count ppn =
      state.owned ppn + (state.hands thread).pages.count ppn := by
  have hmoved := hm.moved ppn
  have hother (p : FramePlace τ cpus) (hne : p ≠ .hand thread) (hne' : p ≠ place) := hm.others ppn p hne hne'
  simp only [FrameState.owned]
  cases hp
  case tracked =>
    rw [hother .raw (by simp) (by simp), hother .contiguous (by simp) (by simp)]
    simp only [placement] at hmoved ⊢
    omega
  case raw =>
    rw [hother .tracked (by simp) (by simp), hother .contiguous (by simp) (by simp)]
    simp only [placement] at hmoved ⊢
    omega
  case contiguous =>
    rw [hother .tracked (by simp) (by simp), hother .raw (by simp) (by simp)]
    simp only [placement] at hmoved ⊢
    omega

omit [DecidableEq τ] [Fintype τ] in
theorem FrameState.Moves.owned_eq (hm : Moves thread .tracked .raw state state') : state'.owned = state.owned := by
  funext ppn
  simp only [FrameState.owned, hm.moved ppn, hm.others ppn .contiguous (by simp) (by simp)]

-- A thread hands out what it holds.
theorem FrameState.Inv.handOut (h : Inv regions state values) (hh : g.hand = state.hands thread)
    (hv : values thread = g) (hg : g.hand.pages = pages) (hm : Moves thread (.hand thread) place state state')
    (hp : place.Owned) (ha : state'.attempts = state.attempts) (hs : state'.history = state.history)
    (hhand : state'.hands thread = .of []) :
    Inv regions (state'.record (.handedOut pages)) (Function.update values thread { g with hand := .of [] }) := by
  refine h.step (hm.record (.handedOut pages)) (h.log.handOut hv ha (congrArg _ hs) (fun ppn => ?_) fun ppn hp => ?_)
    hhand.symm
  case refine_1 =>
    have howned := hm.owned hp ppn
    rw [hhand, ← hh, hg, Multiset.coe_count] at howned
    show state'.owned ppn = _
    simpa [FrameHand.of] using howned
  case refine_2 => exact h.pools.owned_of_held (by rw [← hh, hg]; exact hp)

-- A thread takes back what was handed out.
theorem FrameState.Inv.release (h : Inv regions state values) (hh : g.hand = state.hands thread)
    (hv : values thread = g) (hg : g.hand = .of []) (hm : Moves thread (.hand thread) place state state')
    (hp : place.Owned) (ha : state'.attempts = state.attempts) (hs : state'.history = state.history) {hand : FrameHand}
    (hhand : state'.hands thread = hand) (hpages : hand.pages = pages) :
    Inv regions (state'.record (.released pages)) (Function.update values thread { g with hand }) := by
  refine h.step (hm.record (.released pages)) (h.log.release hv ha (congrArg _ hs) (fun ppn => ?_) fun ppn hp => ?_)
    hhand.symm
  case refine_1 =>
    have howned := hm.owned hp ppn
    rw [hhand, ← hh, hg, hpages, Multiset.coe_count] at howned
    show state'.owned ppn + _ = _
    simpa [FrameHand.of] using howned
  case refine_2 =>
    have hpools := h.pools.move hm
    exact @hpools.owned_of_held _ _ _ _ thread _ _ (by rw [hhand, hpages]; exact hp)

theorem newTracker_wp (hg : g.hand = .uncounted [ppn]) :
    frameWp (τ := τ) regions thread (liftM (@FrameInstr.newTracker cpus ppn))
      (fun _ g' => g' = { g with hand := .of [] }) g := by
  refine frameWp.guarded fun state values b state' hinv hh hv hx => ?_
  simp only [machine, newTrackerExec] at hx
  split at hx
  case isTrue hrefs =>
    cases hx
    have hheld : ppn ∈ (state.hands thread).pages := by
      rw [← hh, hg]
      simp [FrameHand.uncounted]
    have hm := hinv.pools.newTracker_moves hrefs hheld
    have hempty : (state.hands thread).putUncounted [ppn] 1 = .of [] := by
      rw [← hh, hg]
      simp [FrameHand.uncounted, FrameHand.putUncounted, FrameHand.put, FrameHand.of]
    exact ⟨_, hinv.handOut hh hv (by rw [hg]; rfl) hm .tracked rfl rfl ((mapHand_hands _).trans hempty), rfl⟩
  case isFalse => cases hx

theorem cloneTracker_wp (hg : g.hand = .of []) :
    frameWp (τ := τ) regions thread (liftM (@FrameInstr.cloneTracker cpus ppn)) (fun _ g' => g'.hand = .of []) g := by
  refine frameWp.guarded fun state values b state' hinv hh hv hx => ?_
  simp only [machine, cloneTrackerExec] at hx
  split at hx
  case isTrue hclone =>
    cases hx
    have hm := hinv.pools.retrack_moves thread hclone.2.1 (Nat.succ_ne_zero (state.refs ppn))
      (by rw [List.count_cons_self, hinv.pools.owners]) fun q hq => List.count_cons_of_ne hq.symm
    refine ⟨_, hinv.quiet hv hm rfl rfl hm.owned_eq rfl, ?_⟩
    rw [← hg, hh]
    rfl
  case isFalse => cases hx

theorem intoRawPpn_wp (hg : g.hand = .of []) :
    frameWp (τ := τ) regions thread (liftM (@FrameInstr.intoRawPpn cpus ppn)) (fun _ g' => g'.hand = .of []) g := by
  refine frameWp.guarded fun state values b state' hinv hh hv hx => ?_
  simp only [machine, intoRawPpnExec] at hx
  split at hx
  case isTrue hraw =>
    cases hx
    have hm := hinv.pools.intoRaw_moves thread hraw.2
    refine ⟨_, hinv.quiet hv hm rfl rfl hm.owned_eq rfl, ?_⟩
    rw [← hg, hh]
    rfl
  case isFalse => cases hx

-- Pages that are handed out are managed.
omit [DecidableEq τ] in
theorem FrameState.Pools.isManaged (h : state.Pools regions) (hp : 0 < state.placement ppn place) :
    isManagedRange regions ppn 1 := by
  obtain ⟨region, hr, hle, hlt⟩ := h.placed.managed_of_pos hp
  simp only [isManagedRange, Bool.or_eq_true, List.any_eq_true, decide_eq_true_iff]
  exact .inr ⟨region, hr, by simp only [Bool.and_eq_true, decide_eq_true_iff]; omega⟩

theorem dropTracker_wp (hg : g.hand = .of []) :
    frameWp (τ := τ) regions thread (liftM (@FrameInstr.dropTracker cpus ppn)) (fun old g' =>
      if old = 1 then isManagedRange regions ppn 1 ∧ g'.hand = .uncounted [ppn] else g'.hand = .of []) g := by
  refine frameWp.guarded fun state values b state' hinv hh hv hx => ?_
  simp only [machine, dropTrackerExec] at hx
  split at hx
  case isTrue hdrop =>
    obtain ⟨hm, hne⟩ := hdrop
    by_cases hold : state.refs ppn = 1
    case pos =>
      simp only [hold, if_true] at hx
      cases hx
      have hpos : 0 < state.placement ppn .tracked := by simp [placement, hold]
      have hmoves := hinv.pools.dropLast_moves thread hold
      rw [hold] at hmoves
      have hhand : (state.hands thread).takeUncounted [ppn] 1 = .uncounted [ppn] := by
        rw [← hh, hg]
        rfl
      refine ⟨_, hinv.release hh hv hg hmoves .tracked rfl rfl ((mapHand_hands _).trans hhand) rfl, ?_⟩
      rw [if_pos rfl]
      exact ⟨hinv.pools.isManaged hpos, rfl⟩
    case neg =>
      simp only [hold, if_false] at hx
      cases hx
      have hcount := List.count_erase_self (a := ppn) (l := state.trackers)
      rw [← hinv.pools.owners] at hcount
      have hmoves := hinv.pools.retrack_moves thread hne (by omega) hcount fun q hq => List.count_erase_of_ne hq
      refine ⟨_, hinv.quiet hv hmoves rfl rfl hmoves.owned_eq rfl, ?_⟩
      rw [if_neg hold, ← hg, hh]
      rfl
  case isFalse => cases hx

theorem takeRaw_wp (hg : g.hand = .of []) :
    frameWp (τ := τ) regions thread (liftM (@FrameInstr.takeRaw cpus ppn))
      (fun _ g' => isManagedRange regions ppn 1 ∧ g'.hand = .uncounted [ppn]) g := by
  refine frameWp.guarded fun state values b state' hinv hh hv hx => ?_
  simp only [machine, takeRawExec] at hx
  split at hx
  case isTrue hraw =>
    cases hx
    have hpos : 0 < state.placement ppn .raw := List.count_pos_iff.mpr hraw.1
    have hm := hinv.pools.takeRaw_moves thread hraw.1
    have hhand : (state.hands thread).takeUncounted [ppn] 1 = .uncounted [ppn] := by
      rw [← hh, hg]
      rfl
    exact ⟨_, hinv.release hh hv hg hm .raw rfl rfl ((mapHand_hands _).trans hhand) rfl, hinv.pools.isManaged hpos, rfl⟩
  case isFalse => cases hx

theorem allocContiguous_wp (n : Nat) (hg : g.hand = .of []) :
    frameWp (τ := τ) regions thread (liftM (@FrameInstr.allocContiguous cpus n)) (fun result g' => match result with
      | some start => nextPowerOfTwo n ∣ start ∧ g' = { g with hand := .of (frameRun start n) }
      | none       => g' = ⟨g.hand, { g.progress with failed := some n }⟩) g := by
  refine frameWp.total (fun _ => rfl) fun state values hinv hh hv => ?_
  rcases hinv.pools.wf.alloc n with hnone | ⟨start, allocator, hsome, hgives⟩
  case inl =>
    simp only [allocContiguousExec, hnone]
    have hexhausted : Exhausted n state.allocator := by rw [Exhausted, hnone]
    exact ⟨⟨g.hand, { g.progress with failed := some n }⟩,
      hinv.next (hinv.pools.tell (.failed thread n state.allocator)) (fun _ _ => rfl)
        (hinv.log.tell rfl rfl rfl (hinv.log.told.fail (by rw [hv]) hexhausted)) hh, rfl⟩
  case inr =>
    have hm := hinv.pools.take_moves thread hgives
    have hhand : (state.hands thread).take (frameRun start n) = .of (frameRun start n) := by
      rw [← hh, hg, FrameHand.of_take, List.nil_append]
    simp only [allocContiguousExec, hsome]
    exact ⟨_, hinv.quiet hv hm rfl rfl rfl ((mapHand_hands _).trans hhand), hgives.aligned, rfl⟩

theorem discardContiguous_wp (hg : g.hand = .of (frameRun start n)) :
    frameWp (τ := τ) regions thread (liftM (@FrameInstr.discardContiguous cpus start n))
      (fun _ g' => g' = { g with hand := .of [] }) g := by
  refine frameWp.total (fun _ => rfl) fun state values hinv hh hv => ?_
  have hm := hinv.pools.discardContiguous_moves thread (n := n) (by rw [← hh, hg]; exact le_refl _)
    (by rw [← hh, hg]; exact (length_frameRun start n).ge)
  have hhand : (state.hands thread).put (frameRun start n) = .of [] := by
    rw [← hh, hg, FrameHand.of_put (.of_eq (List.append_nil _).symm)]
  exact ⟨_, hinv.quiet hv hm rfl rfl rfl ((mapHand_hands _).trans hhand), rfl⟩

theorem giveContiguous_wp (hg : g.hand = .range start n) (hd : nextPowerOfTwo n ∣ start)
    (hmanaged : isManagedRange regions start n) :
    frameWp (τ := τ) regions thread (liftM (@FrameInstr.giveContiguous cpus start n))
      (fun _ g' => g' = { g with hand := .of [] }) g := by
  refine frameWp.total (fun _ => rfl) fun state values hinv hh hv => ?_
  have hm := hinv.pools.giveContiguous_moves thread hd hmanaged (by rw [← hh, hg]; exact le_refl _)
    (by rw [← hh, hg]; exact le_refl _)
  have hhand : (state.hands thread).putUncounted (frameRun start n) n = .of [] := by
    rw [← hh, hg]
    simp [FrameHand.range, FrameHand.putUncounted, FrameHand.put, FrameHand.of, length_frameRun]
  exact ⟨_, hinv.handOut hh hv (by rw [hg]; rfl) hm .contiguous rfl rfl ((mapHand_hands _).trans hhand), rfl⟩

theorem takeContiguous_wp (hg : g.hand = .of []) :
    frameWp (τ := τ) regions thread (liftM (@FrameInstr.takeContiguous cpus start n))
      (fun _ g' => nextPowerOfTwo n ∣ start ∧ isManagedRange regions start n ∧ g' = { g with hand := .range start n })
      g := by
  refine frameWp.guarded fun state values b state' hinv hh hv hx => ?_
  simp only [machine, takeContiguousExec] at hx
  split at hx
  case isTrue hr =>
    cases hx
    have hr : (start, n) ∈ state.contiguous := List.contains_iff_mem.mp hr
    have hm := hinv.pools.takeContiguous_moves thread hr
    have hhand : (state.hands thread).takeUncounted (frameRun start n) n = .range start n := by
      rw [← hh, hg]
      simp [FrameHand.range, FrameHand.takeUncounted, FrameHand.take, FrameHand.of, length_frameRun]
    exact ⟨_, hinv.release hh hv hg hm .contiguous rfl rfl ((mapHand_hands _).trans hhand) rfl,
      hinv.pools.aligned _ hr, hinv.pools.managed _ hr, rfl⟩
  case isFalse => cases hx

theorem deallocContiguous_wp (hg : g.hand = .range start n) (hd : nextPowerOfTwo n ∣ start) :
    frameWp (τ := τ) regions thread (liftM (@FrameInstr.deallocContiguous cpus start n))
      (fun _ g' => g' = { g with hand := { FrameHand.of [] with debt := n } }) g := by
  refine frameWp.total (fun _ => rfl) fun state values hinv hh hv => ?_
  have hle : (frameRun start n : Multiset Nat) ≤ (state.hands thread).pages := by
    rw [← hh, hg]
    exact le_refl _
  have htakes := hinv.pools.wf.dealloc hd (hinv.pools.held_once hle) (hinv.pools.held_bounds hle)
  have hn := le_nextPowerOfTwo n
  have hhand : ({ (state.hands thread).putUncounted (frameRun start n) n with debt := (state.hands thread).debt + n } :
      FrameHand) = { FrameHand.of [] with debt := n } := by
    rw [← hh, hg]
    simp [FrameHand.range, FrameHand.putUncounted, FrameHand.put, FrameHand.of, length_frameRun]
  have hm := hinv.pools.give_moves thread
    (f := fun hand => { hand.putUncounted (frameRun start n) n with debt := hand.debt + n }) hle htakes rfl
    (by
      rw [hhand, ← hh, hg]
      simp only [FrameHand.range, FrameHand.of, length_frameRun, List.length_nil]
      omega)
    (Nat.le_add_right ..)
  exact ⟨_, hinv.quiet hv hm rfl rfl rfl ((mapHand_hands _).trans hhand), rfl⟩

end WllOs
