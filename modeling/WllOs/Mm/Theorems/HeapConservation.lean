import WllOs.Mm.Theorems.HeapCaches

namespace WllOs

open HeapState HeapInstr

section

variable {τ : Type} [DecidableEq τ] {cpus : Nat} {thread : τ} {g : HeapProgress cpus}
variable {layout : Layout} {cls : SmallClass} {ptrs rest held : List Nat} {ptr : Nat}

def heapProtocol : Protocol (machine : Machine (HeapInstr cpus) (HeapState τ cpus) τ) (HeapProgress cpus) where
  inv := Inv

-- What a step of a thread leaves the thread with.
abbrev heapWp (thread : τ) {α : Type} (prog : Prog (HeapInstr cpus) α) (post : α → HeapProgress cpus → Prop)
    (g : HeapProgress cpus) : Prop :=
  heapProtocol.wp thread prog post g

theorem heapWp.total {β : Type} {instr : HeapInstr cpus β} {post : β → HeapProgress cpus → Prop}
    {f : HeapState τ cpus → β × HeapState τ cpus} (hx : ∀ state, machine.exec thread instr state = some (f state))
    (h : ∀ state values, Inv state values → g.hand = state.hands thread → values thread = g →
      ∃ g', Inv (f state).2 (Function.update values thread g') ∧ post (f state).1 g') :
    heapWp thread (liftM instr) post g :=
  Protocol.wp.total hx trivial fun state values hinv hv _ => h state values hinv (by rw [← hinv.hands, hv]) hv

-- An instruction that may stop the kernel.
theorem heapWp.guarded {β : Type} {instr : HeapInstr cpus β} {post : β → HeapProgress cpus → Prop}
    (h : ∀ state values b state', Inv state values → g.hand = state.hands thread → values thread = g →
      machine.exec thread instr state = some (b, state') →
      ∃ g', Inv state' (Function.update values thread g') ∧ post b g') :
    heapWp thread (liftM instr) post g :=
  Protocol.wp.instr trivial fun state values b state' hinv hv _ hx =>
    h state values b state' hinv (by rw [← hinv.hands, hv]) hv hx

theorem heapBegin_wp :
    heapWp (τ := τ) thread (liftM (@HeapInstr.begin cpus)) (fun _ g' => g' = ⟨g.hand, [], none⟩) g := by
  refine heapWp.total (fun _ => rfl) fun state values hinv hh hv => ?_
  exact ⟨{ g with progress := ⟨[], none⟩ }, hinv.tell hv (hinv.log.told.begin thread), rfl⟩

theorem heapRefuse_wp (hf : g.progress.failed = some layout) (hd : ∀ pool, pool ∈ g.progress.drained) :
    heapWp (τ := τ) thread (liftM (@HeapInstr.refuse cpus layout)) (fun _ g' => g'.hand = g.hand) g := by
  refine heapWp.total (fun _ => rfl) fun state values hinv hh hv => ?_
  exact ⟨{ g with progress := { g.progress with failed := none } },
    hinv.tell hv (hinv.log.told.refuse (congrArg HeapProgress.progress hv) hf hd), rfl⟩

theorem heapPop_wp (cpu : Fin cpus) (hg : g.hand = 0) :
    heapWp (τ := τ) thread (liftM (HeapInstr.pop cpu cls))
      (fun result g' => g' = { g with hand := withLayout (classLayout cls) result.toList }) g := by
  refine heapWp.total (fun _ => rfl) fun state values hinv hh hv => ?_
  cases hblocks : (state.caches cpu).blocks cls
  case nil =>
    have hexec : popExec thread cpu cls state = (none, state) := by
      simp only [popExec, SmallCache.pop, hblocks]
    rw [hexec]
    refine ⟨g, ?_, ?_⟩
    case refine_1 => rwa [← hv, Function.update_eq_self]
    case refine_2 => rw [show withLayout (classLayout cls) (none : Option Nat).toList = g.hand from hg.symm]
  case cons ptr blocks =>
    have hexec : popExec thread cpu cls state = (some ptr,
        (state.setCache cpu ((state.caches cpu).set cls blocks)).exchange thread (classLayout cls) [] [ptr]) := by
      simp only [popExec, SmallCache.pop, hblocks]
    have hcap := hinv.blocks.capacity cpu cls
    rw [hblocks] at hcap
    have hempty : state.hands thread = withLayout (classLayout cls) [] := hh.symm.trans hg
    have hperm : ([ptr] ++ blocks).Perm ([] ++ (state.caches cpu).blocks cls) := by
      rw [hblocks]
      exact .refl _
    obtain ⟨hp, hhand⟩ := hinv.blocks.exchange_passes thread cpu cls hempty (.refl _) hperm (Nat.le_of_succ_le hcap)
    rw [hexec]
    exact ⟨_, hinv.pass hv hp (fun _ => by simp) rfl rfl hhand, rfl⟩

theorem drainClass_wp (cpu : Fin cpus) (cls : SmallClass) (hg : g.hand = 0) :
    heapWp (τ := τ) thread (liftM (HeapInstr.drainClass cpu cls))
      (fun ptrs g' => g' = ⟨withLayout (classLayout cls) ptrs, (cpu, cls) :: g.progress.drained, none⟩) g := by
  refine heapWp.total (fun _ => rfl) fun state values hinv hh hv => ?_
  have hcap := hinv.blocks.capacity cpu cls
  have hexec : drainClassExec thread cpu cls state = ((state.caches cpu).blocks cls,
      ((state.setCache cpu ((state.caches cpu).set cls [])).exchange thread (classLayout cls) []
        ((state.caches cpu).blocks cls)).tell (.drained thread (cpu, cls))) := by
    simp only [drainClassExec, SmallCache.drainClass, List.take_of_length_le hcap, List.drop_of_length_le hcap]
  have hempty : state.hands thread = withLayout (classLayout cls) [] := hh.symm.trans hg
  have hperm : ((state.caches cpu).blocks cls ++ []).Perm ([] ++ (state.caches cpu).blocks cls) := by simp
  obtain ⟨hp, hhand⟩ := hinv.blocks.exchange_passes thread cpu cls hempty (.refl _) hperm (Nat.zero_le _)
  have hnext := (hinv.pass hv hp (fun _ => by simp) rfl rfl hhand).tell
    (Function.update_self ..) (Attempt.Told.drain (hinv.log.told_same hv)
      (by rw [Function.comp_apply, Function.update_self]) (cpu, cls))
  rw [Function.update_idem] at hnext
  rw [hexec]
  exact ⟨_, hnext, rfl⟩

theorem heapPushAll_wp (cpu : Fin cpus) (hg : g.hand = withLayout (classLayout cls) held)
    (hp : held.Perm (ptrs ++ rest)) :
    heapWp (τ := τ) thread (liftM (HeapInstr.pushAll cpu cls ptrs))
      (fun returned g' => g' = { g with hand := withLayout (classLayout cls) (rest ++ returned) }) g := by
  refine heapWp.total (fun _ => rfl) fun state values hinv hh hv => ?_
  have he := BoundedStack.pushAll_exchanges ptrs (hinv.blocks.capacity cpu cls)
  obtain ⟨hpass, hhand⟩ := hinv.blocks.exchange_passes thread cpu cls (hh.symm.trans hg) hp he.perm he.room
  exact ⟨_, hinv.pass hv hpass (fun _ => by simp) rfl rfl hhand, rfl⟩

theorem heapPushOrFlush_wp (cpu : Fin cpus) (hg : g.hand = withLayout (classLayout cls) [ptr]) :
    heapWp (τ := τ) thread (liftM (HeapInstr.pushOrFlush cpu cls ptr))
      (fun flushed g' => g' = { g with hand := withLayout (classLayout cls) flushed }) g := by
  refine heapWp.total (fun _ => rfl) fun state values hinv hh hv => ?_
  have hflush : 0 < FLUSH_BATCH ∧ FLUSH_BATCH ≤ CACHE_CAPACITY := by decide
  have he := BoundedStack.pushOrFlush_exchanges ptr (hinv.blocks.capacity cpu cls) hflush.1 hflush.2
  have hput : [ptr].Perm ([ptr] ++ []) := .refl _
  obtain ⟨hpass, hhand⟩ := hinv.blocks.exchange_passes thread cpu cls (hh.symm.trans hg) hput he.perm he.room
  exact ⟨_, hinv.pass hv hpass (fun _ => by simp) rfl rfl hhand, rfl⟩

theorem centralAllocBatch_wp (layout : Layout) {len : Nat} (hl : 0 < len) (hg : g.hand = 0) :
    heapWp (τ := τ) thread (liftM (@HeapInstr.centralAllocBatch cpus layout len)) (fun ptrs g' => match ptrs with
      | []          => g' = ⟨0, { g.progress with failed := some layout }⟩
      | ptr :: ptrs => ptrs.length < len ∧ g' = { g with hand := withLayout layout (ptr :: ptrs) }) g := by
  refine heapWp.total (fun _ => rfl) fun state values hinv hh hv => ?_
  have hwf := hinv.blocks.wf
  have hgives := Heap.allocBatch_gives layout len hwf
  rcases hb : allocBatch layout len state.central with ⟨ptrs, heap⟩
  rw [hb] at hgives
  cases ptrs
  case nil =>
    obtain ⟨heq, hnone⟩ := Heap.allocBatch_nil hl (by rw [hb]) hwf
    rw [hb] at heq
    obtain rfl : heap = state.central := heq
    have hexhausted : Heap.Exhausted layout state.central := hnone
    simp only [centralAllocBatchExec, hb]
    have hnext := hinv.tell hv (hinv.log.told.fail (congrArg HeapProgress.progress hv) hexhausted)
    exact ⟨_, hnext, by rw [hg]⟩
  case cons ptr ptrs =>
    simp only [centralAllocBatchExec, hb]
    have hlength := Heap.allocBatch_length layout len state.central
    rw [hb] at hlength
    exact ⟨_, hinv.grant hv (hh.symm.trans hg) hgives.1 (hgives.2 (List.cons_ne_nil ptr ptrs)), hlength, rfl⟩

theorem centralDeallocBatch_wp (hg : g.hand = withLayout layout held) (hp : held.Perm (ptrs ++ rest)) :
    heapWp (τ := τ) thread (WllOs.centralDeallocBatch layout ptrs : Prog (HeapInstr cpus) Unit)
      (fun _ g' => g' = { g with hand := withLayout layout rest }) g := by
  rw [WllOs.centralDeallocBatch]
  split
  case isTrue he =>
    rw [List.isEmpty_iff.mp he, List.nil_append] at hp
    show g = _
    rw [← withLayout_perm hp, ← hg]
  case isFalse he =>
    refine heapWp.total (fun _ => rfl) fun state values hinv hh hv => ?_
    have hh : state.hands thread = withLayout layout held := hh.symm.trans hg
    have hle : withLayout layout ptrs ≤ state.hands thread := by
      rw [hh, withLayout_perm hp, withLayout_append]
      exact Multiset.le_add_right ..
    obtain ⟨ptr, hptr⟩ := List.exists_mem_of_ne_nil ptrs fun hn => he (List.isEmpty_iff.mpr hn)
    have hmem := Multiset.mem_of_le hle (mem_withLayout.mpr ⟨hptr, rfl⟩)
    have hc := (hinv.blocks.fit (.hand thread) (ptr, layout) hmem).2
    have htakes := Heap.dealloc_all ptrs (hinv.blocks.held_apart hle) hc
    exact ⟨_, hinv.giveBack hv hh hp htakes, rfl⟩

-- A thread passes a block to the caller.
theorem heapGive_wp (hg : g.hand = withLayout layout.central [ptr]) :
    heapWp (τ := τ) thread (liftM (@HeapInstr.give cpus ptr layout)) (fun _ g' => g'.hand = 0) g := by
  refine heapWp.total (fun _ => rfl) fun state values hinv hh hv => ?_
  obtain ⟨hpass, hhand⟩ := hinv.blocks.outstanding_passes ((ptr, layout) :: state.outstanding) [ptr] []
    (hh.symm.trans hg) (zero_add _)
  exact ⟨{ g with hand := 0 }, hinv.pass hv hpass (fun _ => by simp) rfl rfl hhand, rfl⟩

theorem heapTake_wp (hg : g.hand = 0) :
    heapWp (τ := τ) thread (liftM (@HeapInstr.take cpus ptr layout))
      (fun _ g' => g' = { g with hand := withLayout layout.central [ptr] }) g := by
  refine heapWp.guarded fun state values b state' hinv hh hv hx => ?_
  simp only [machine, takeExec] at hx
  split at hx
  case isTrue hm =>
    cases hx
    have hperm := (List.perm_cons_erase hm).map fun block : Nat × Layout => (block.1, block.2.central)
    obtain ⟨hpass, hhand⟩ := hinv.blocks.outstanding_passes _ [] [ptr] (hh.symm.trans hg)
      ((Multiset.coe_eq_coe.mpr hperm).symm.trans (zero_add _).symm)
    exact ⟨_, hinv.pass hv hpass (fun _ => by simp) rfl rfl hhand, rfl⟩
  case isFalse => cases hx

theorem addToHeap_wp (start stop : Nat) (hg : g.hand = 0) :
    heapWp (τ := τ) thread (liftM (@HeapInstr.addToHeap cpus start stop)) (fun _ g' => g'.hand = 0) g := by
  refine heapWp.guarded fun state values b state' hinv hh hv hx => ?_
  simp only [machine, addToHeapExec] at hx
  split at hx
  case isTrue hfresh =>
    simp only [Heap.addToHeap, Heap.wordRange] at hx hfresh
    by_cases hle : (start + 7) / 8 * 8 ≤ stop / 8 * 8
    case pos =>
      simp only [hle, if_true, Option.map_some] at hx
      cases hx
      have hblocks := hinv.blocks.grow hfresh.1 hfresh.2.1 hfresh.2.2 (Nat.dvd_mul_left ..) (Nat.dvd_mul_left ..)
      refine ⟨g, ⟨hblocks, ⟨?_, hinv.log.granted, hinv.log.returned⟩, ?_⟩, hg⟩
      case refine_1 => exact hinv.log.told_same hv
      case refine_2 => exact hinv.hands_update (fun _ _ => rfl) hh
    case neg =>
      simp only [hle, if_false, Option.map_none] at hx
      cases hx
  case isFalse => cases hx

-- The given caches are drained, one after the other.
theorem drainCaches_wp (later : List (Fin cpus × SmallClass)) (hg : g.hand = 0) :
    heapWp (τ := τ) thread (drainCaches later)
      (fun _ g' => g'.hand = 0 ∧ ∀ pool, pool ∈ later ∨ pool ∈ g.progress.drained → pool ∈ g'.progress.drained) g := by
  induction later generalizing g
  case nil => exact ⟨hg, fun pool hp => hp.resolve_left (List.not_mem_nil)⟩
  case cons pool later hi =>
    obtain ⟨cpu, cls⟩ := pool
    rw [drainCaches]
    refine .bind ((drainClass_wp cpu cls hg).mono fun ptrs g' hg' => ?_)
    subst hg'
    refine .bind ((centralDeallocBatch_wp rfl (.of_eq (List.append_nil _).symm)).mono fun _ g' hg' => ?_)
    subst hg'
    refine (hi rfl).mono fun _ g' hg' => ⟨hg'.1, fun pool hp => hg'.2 pool ?_⟩
    rw [List.mem_cons] at hp
    rcases hp with (rfl | hp) | hp
    case inl.inl => exact .inr (.head _)
    case inl.inr => exact .inl hp
    case inr => exact .inr (.tail _ hp)

theorem drainAllCaches_wp (hg : g.hand = 0) :
    heapWp (τ := τ) thread (drainAllCaches : Prog (HeapInstr cpus) Unit)
      (fun _ g' => g'.hand = 0 ∧ ∀ pool, pool ∈ g'.progress.drained) g :=
  (drainCaches_wp _ hg).mono fun _ _ hg' => ⟨hg'.1, fun pool => hg'.2 pool (.inl
    (List.pair_mem_product.mpr ⟨List.mem_finRange pool.1, List.mem_finRange pool.2⟩))⟩

-- What a request ends with: a block, or nothing after everything was tried.
def Obtained (layout : Layout) (result : Option Nat) (g : HeapProgress cpus) : Prop :=
  match result with
  | some ptr => g.hand = withLayout layout [ptr]
  | none     => g.hand = 0 ∧ g.progress.failed = some layout ∧ ∀ pool, pool ∈ g.progress.drained

theorem refillCache_wp (cpu : Fin cpus) (cls : SmallClass) (hg : g.hand = withLayout (classLayout cls) (ptr :: ptrs)) :
    heapWp (τ := τ) thread (refillCache cpu cls (ptr :: ptrs)) (Obtained (classLayout cls)) g := by
  rw [refillCache]
  refine .bind ((heapPushAll_wp cpu hg (List.perm_append_singleton ptr ptrs).symm).mono fun returned g' hg' => ?_)
  subst hg'
  refine .bind ((centralDeallocBatch_wp rfl List.perm_append_comm).mono fun _ g' hg' => ?_)
  subst hg'
  exact rfl

theorem allocSmall_wp (cpu : Fin cpus) (cls : SmallClass) (hg : g.hand = 0) :
    heapWp (τ := τ) thread (allocSmall cpu cls) (Obtained (classLayout cls)) g := by
  rw [allocSmall]
  refine .bind ((heapPop_wp cpu hg).mono fun result g' hg' => ?_)
  subst hg'
  cases result
  case some ptr => exact rfl
  case none =>
    refine .bind ((centralAllocBatch_wp (classLayout cls) (by decide) rfl).mono fun ptrs g' hg' => ?_)
    cases ptrs
    case cons ptr ptrs => exact refillCache_wp cpu cls (by rw [hg'.2])
    case nil =>
      have hg' : g' = _ := hg'
      subst hg'
      refine .bind ((drainAllCaches_wp rfl).mono fun _ g' hg' => ?_)
      refine .bind ((centralAllocBatch_wp (classLayout cls) (by decide) hg'.1).mono fun ptrs g'' hg'' => ?_)
      cases ptrs
      case cons ptr ptrs => exact refillCache_wp cpu cls (by rw [hg''.2])
      case nil =>
        have hg'' : g'' = _ := hg''
        subst hg''
        exact ⟨rfl, rfl, hg'.2⟩

theorem allocLarge_wp (layout : Layout) (hg : g.hand = 0) :
    heapWp (τ := τ) thread (allocLarge layout : Prog (HeapInstr cpus) (Option Nat)) (Obtained layout) g := by
  rw [allocLarge]
  refine .bind ((centralAllocBatch_wp layout Nat.one_pos hg).mono fun ptrs g' hg' => ?_)
  cases ptrs
  case cons ptr ptrs =>
    obtain ⟨hlength, rfl⟩ := hg'
    rw [List.length_eq_zero_iff.mp (Nat.lt_one_iff.mp hlength)]
    exact rfl
  case nil =>
    have hg' : g' = _ := hg'
    subst hg'
    refine .bind ((drainAllCaches_wp rfl).mono fun _ g' hg' => ?_)
    refine .bind ((centralAllocBatch_wp layout Nat.one_pos hg'.1).mono fun ptrs g'' hg'' => ?_)
    cases ptrs
    case cons ptr ptrs =>
      obtain ⟨hlength, rfl⟩ := hg''
      rw [List.length_eq_zero_iff.mp (Nat.lt_one_iff.mp hlength)]
      exact rfl
    case nil =>
      have hg'' : g'' = _ := hg''
      subst hg''
      exact ⟨rfl, rfl, hg'.2⟩

theorem allocBlock_wp (cpu : Fin cpus) (layout : Layout) (hg : g.hand = 0) :
    heapWp (τ := τ) thread (allocBlock cpu layout) (Obtained layout.central) g := by
  rw [allocBlock]
  split
  case h_1 cls hcls =>
    rw [central_of_some hcls]
    exact allocSmall_wp cpu cls hg
  case h_2 hcls =>
    rw [central_of_none hcls]
    exact allocLarge_wp layout hg

theorem allocHeap_wp (cpu : Fin cpus) (layout : Layout) (hg : g.hand = 0) :
    heapWp (τ := τ) thread (allocHeap cpu layout) (fun _ g' => g'.hand = 0) g := by
  rw [allocHeap]
  refine .bind (heapBegin_wp.mono fun _ g' hg' => ?_)
  subst hg'
  have hidle : (⟨g.hand, ⟨[], none⟩⟩ : HeapProgress cpus).hand = 0 := hg
  refine .bind ((allocBlock_wp cpu layout hidle).mono fun result g' hg' => ?_)
  cases result
  case none     => exact .bind ((heapRefuse_wp hg'.2.1 hg'.2.2).mono fun _ g'' hg'' => hg''.trans hg'.1)
  case some ptr => exact .bind ((heapGive_wp hg').mono fun _ g'' hg'' => hg'')

theorem deallocSmall_wp (cpu : Fin cpus) (hg : g.hand = withLayout (classLayout cls) [ptr]) :
    heapWp (τ := τ) thread (deallocSmall cpu ptr cls) (fun _ g' => g'.hand = 0) g := by
  rw [deallocSmall]
  refine .bind ((heapPushOrFlush_wp cpu hg).mono fun flushed g' hg' => ?_)
  subst hg'
  refine (centralDeallocBatch_wp rfl (.of_eq (List.append_nil _).symm)).mono fun _ g' hg' => ?_
  subst hg'
  exact rfl

theorem deallocHeap_wp (cpu : Fin cpus) (ptr : Nat) (layout : Layout) (hg : g.hand = 0) :
    heapWp (τ := τ) thread (deallocHeap cpu ptr layout) (fun _ g' => g'.hand = 0) g := by
  rw [deallocHeap]
  refine .bind ((heapTake_wp hg).mono fun _ g' hg' => ?_)
  subst hg'
  split
  case h_1 cls hcls => exact deallocSmall_wp cpu (by rw [central_of_some hcls])
  case h_2 hcls =>
    have hhand : withLayout layout.central [ptr] = withLayout layout [ptr] := by rw [central_of_none hcls]
    refine (centralDeallocBatch_wp hhand (.of_eq (List.append_nil _).symm)).mono fun _ g' hg' => ?_
    subst hg'
    exact rfl

theorem heapCall_wp {α : Type} {prog : Prog (HeapInstr cpus) α} (hc : HeapCall prog) (hg : g.hand = 0) :
    heapWp (τ := τ) thread prog (fun _ g' => g'.hand = 0) g := by
  cases hc
  case alloc cpu layout       => exact allocHeap_wp cpu layout hg
  case dealloc cpu ptr layout => exact deallocHeap_wp cpu ptr layout hg
  case addToHeap start stop   => exact addToHeap_wp start stop hg

end

namespace HeapState

variable {τ : Type} [DecidableEq τ] {cpus : Nat} {state : HeapState τ cpus} {values : τ → HeapProgress cpus}

theorem blockSize_central (layout : Layout) : layout.central.blockSize = layout.blockSize := by
  rw [Layout.blockSize_eq, Layout.blockSize_eq, shift_central]

-- Blocks that cover no address twice do not overlap.
theorem pairwise_of_heldCover {blocks : List (Nat × Layout)}
    (h : ∀ addr, heldCover addr (blocks : Multiset (Nat × Layout)) ≤ 1) :
    blocks.Pairwise fun a b => a.1 + a.2.blockSize ≤ b.1 ∨ b.1 + b.2.blockSize ≤ a.1 := by
  have hpos (layout : Layout) : 0 < layout.blockSize := by
    rw [Layout.blockSize_eq]
    exact Nat.two_pow_pos _
  induction blocks
  case nil => exact .nil
  case cons block blocks hi =>
    have hsum (addr) : heldCover addr ((block :: blocks : List (Nat × Layout)) : Multiset (Nat × Layout)) =
        heldCover addr {block} + heldCover addr (blocks : Multiset (Nat × Layout)) := by
      rw [← heldCover_add, Multiset.singleton_add, Multiset.cons_coe]
    refine .cons (fun other ho => ?_) (hi fun addr => ?_)
    case refine_1 =>
      by_contra hover
      rw [not_or, Nat.not_le, Nat.not_le] at hover
      have := hpos block.2
      have := hpos other.2
      have hfirst : 0 < heldCover (max block.1 other.1) {block} :=
        heldCover_pos (Multiset.mem_singleton_self block) (by omega) (by omega)
      have hsecond : 0 < heldCover (max block.1 other.1) (blocks : Multiset (Nat × Layout)) :=
        heldCover_pos (Multiset.mem_coe.mpr ho) (by omega) (by omega)
      have := h (max block.1 other.1)
      rw [hsum] at this
      omega
    case refine_2 =>
      have := h addr
      rw [hsum] at this
      omega

omit [DecidableEq τ] in
theorem Blocks.served (h : state.Blocks) : state.Served := by
  have hmem {block : Nat × Layout} (hb : block ∈ state.outstanding) :
      (block.1, block.2.central) ∈ state.held .outstanding :=
    Multiset.mem_coe.mpr (List.mem_map.mpr ⟨block, hb, rfl⟩)
  have honce (addr) : heldCover addr (state.held .outstanding) ≤ 1 :=
    (Nat.le_add_right ..).trans (h.placed.le_one (p := .outstanding) (q := .central) addr (by simp))
  refine ⟨fun block _ => block.2.size_le, fun block hb addr hge hlt => ?_, fun block hb => ?_, ?_⟩
  case refine_1 =>
    have hpos : 0 < state.placement addr .outstanding :=
      heldCover_pos (hmem hb) hge (by rwa [blockSize_central])
    exact ⟨h.placed.managed_of_pos hpos, Nat.le_antisymm (honce addr) hpos⟩
  case refine_2 =>
    have hfit := (h.fit .outstanding _ (hmem hb)).1
    rw [shift_central, ← Layout.blockSize_eq] at hfit
    exact block.2.align_dvd.trans hfit
  case refine_3 =>
    have hpairs : (state.outstanding.map fun block => (block.1, block.2.central)).Pairwise fun a b =>
        a.1 + a.2.blockSize ≤ b.1 ∨ b.1 + b.2.blockSize ≤ a.1 := pairwise_of_heldCover honce
    rw [List.pairwise_map] at hpairs
    exact hpairs.imp fun hab => by simpa only [blockSize_central] using hab

theorem Inv.conserved (h : Inv state values) : state.Conserved where
  placed   := h.blocks.placed
  capacity := h.blocks.capacity
  returned := h.log.returned
  cached cpu cls ptr hp := (h.log.granted ptr _).mpr ⟨.cache cpu cls, mem_withLayout.mpr ⟨hp, rfl⟩⟩

theorem initial_inv : Inv (initial : HeapState τ cpus) fun _ => ⟨0, ⟨[], none⟩⟩ := by
  have hheld (place : HeapPlace τ cpus) : (initial : HeapState τ cpus).held place = 0 := by
    cases place <;> rfl
  have hcentral : (initial : HeapState τ cpus).central.blocks = 0 := by
    simp [Heap.blocks, BuddyBlocks.freeBlocks, initial, Heap.empty]
  have hplacement (addr : Nat) (place : HeapPlace τ cpus) : (initial : HeapState τ cpus).placement addr place = 0 := by
    cases place
    case central => exact (Heap.cover_eq ..).symm.trans (by rw [hcentral]; rfl)
    all_goals exact congrArg (heldCover addr) (hheld _)
  constructor
  case hands => exact fun _ => rfl
  case blocks =>
    refine ⟨?_, ⟨fun addr hm => ?_, fun addr _ => hplacement addr⟩, fun place block hb => ?_, fun _ _ => Nat.zero_le _⟩
    case refine_1 =>
      rw [hcentral]
      exact ⟨fun block hb => absurd hb (Multiset.notMem_zero _), fun _ => Nat.zero_le _⟩
    case refine_2 =>
      obtain ⟨region, hr, -⟩ := hm
      cases hr
    case refine_3 => exact absurd (hheld place ▸ hb) (Multiset.notMem_zero _)
  case log =>
    refine ⟨Attempt.told_nil, fun ptr layout => ⟨fun he => (by cases he), fun hm => ?_⟩,
      fun later earlier ptrs layout heq => ?_⟩
    case refine_1 =>
      obtain ⟨place, hm⟩ := hm
      exact absurd (hheld place ▸ hm) (Multiset.notMem_zero _)
    case refine_2 => simp [initial] at heq

end HeapState

-- All requests of all threads, in any interleaving.
theorem heap_conserved {τ : Type} [DecidableEq τ] {cpus : Nat} (progs : τ → Prog (HeapInstr cpus) Unit)
    (hc : ∀ t, (progs t).Calls HeapCall) (config : Config (HeapInstr cpus) (HeapState τ cpus) τ)
    (hr : Config.Reachable HeapInstr.machine (fun _ _ _ => True) ⟨.initial, progs⟩ config) :
    config.state.Conserved ∧ config.state.Served ∧ config.state.RefusedWhenExhausted ∧
    ∀ t, config.prog t = .ret () → config.state.hands t = 0 := by
  have hsound : Protocol.Sound (heapProtocol : Protocol HeapInstr.machine (HeapProgress cpus)) (fun _ g => g.hand = 0)
      ⟨.initial, progs⟩ (fun _ => ⟨0, ⟨[], none⟩⟩) := {
    inv := initial_inv
    wp  := fun t => .calls (hc t) rfl fun hc hg => heapCall_wp hc hg
  }
  have ⟨values, h⟩ := Protocol.sound hsound (fun _ _ _ _ _ => trivial) hr
  refine ⟨h.inv.conserved, h.inv.blocks.served, h.inv.log.told.justified, fun t ht => ?_⟩
  have hidle := h.wp t
  rw [ht] at hidle
  exact (h.inv.hands t).symm.trans hidle

-- A word.
def wordLayout : Layout where
  size       := 8
  alignShift := 3
  fits       := by decide

-- One word out of 64 bytes.
def allocWord : Prog (HeapInstr 1) Unit := do
  @HeapInstr.addToHeap 1 64 128
  let _ ← allocHeap (⟨0, Nat.one_pos⟩ : Fin 1) wordLayout
  pure ()

theorem allocWord_calls : allocWord.Calls HeapCall :=
  .call (.addToHeap 64 128) fun _ => .call (.alloc 0 wordLayout) fun _ => .done

theorem word_conserved : ∃ config : Config (HeapInstr 1) (HeapState Unit 1) Unit,
    config.state.outstanding = [(64, wordLayout)] ∧ config.state.Conserved ∧ config.state.Served := by
  obtain ⟨config, hr, hseen⟩ := Config.Reachable.of_run_view HeapInstr.machine
    ⟨.initial, fun _ : Unit => allocWord⟩ (·.state.outstanding) [(64, wordLayout)] (List.replicate 6 ()) rfl
  have h := heap_conserved (fun _ => allocWord) (fun _ => allocWord_calls) config hr
  exact ⟨config, hseen, h.1, h.2.1⟩

end WllOs
