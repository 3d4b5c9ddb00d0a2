import WllOs.Library.Ledger
import WllOs.Mm.Asid

namespace WllOs

-- What a thread holds of the identifiers: the retired ones it recycles, together with the processors it has
-- flushed since it took them, or the one it was given.
inductive AsidPhase
  | idle
  | recycling (retired flushed : List Nat)
  | given (asid : Nat)

namespace AsidPhase

def held : AsidPhase → List Nat
  | idle                => []
  | recycling retired _ => retired
  | given asid          => [asid]

end AsidPhase

inductive AsidPlace (τ : Type)
  | unissued
  | reusable
  | retired
  | live
  | thread (t : τ)

namespace AsidState

variable {τ : Type} [DecidableEq τ]

def placement (state : AsidState) (values : τ → AsidPhase) (asid : Nat) : Placement (AsidPlace τ)
  | .unissued => if state.allocator.nextAsid ≤ asid then 1 else 0
  | .reusable => state.allocator.reusable.count asid
  | .retired  => state.allocator.retired.count asid
  | .live     => state.live.count asid
  | .thread t => (values t).held.count asid

-- A processor was flushed after an identifier was retired last.
def FlushedSince (history : List AsidEvent) (asid cpu : Nat) : Prop :=
  ∀ between earlier, history = between ++ .retired asid :: earlier → .flushed cpu ∈ between

structure Inv (arch : Arch) (cpus : List Nat) (state : AsidState) (values : τ → AsidPhase) : Prop where
  once      : ∀ asid, 0 < asid → (state.placement values asid).Once
  seen      : ∀ asid, .retired asid ∈ state.history → 0 < asid ∧ asid < state.allocator.nextAsid
  reusable  : arch = .riscv64 → ∀ asid ∈ state.allocator.reusable, ∀ cpu ∈ cpus,
                FlushedSince state.history asid cpu
  recycling : ∀ t retired flushed, values t = .recycling retired flushed → ∀ asid ∈ retired,
                ∀ cpu ∈ flushed, FlushedSince state.history asid cpu
  reissued  : arch = .riscv64 → state.FlushedBeforeReissue cpus

variable {history : List AsidEvent} {event : AsidEvent} {asid cpu : Nat}

theorem FlushedSince.cons (h : FlushedSince history asid cpu) (he : event ≠ .retired asid) :
    FlushedSince (event :: history) asid cpu := by
  intro between earlier heq
  cases between
  case nil =>
    simp only [List.nil_append, List.cons.injEq] at heq
    exact absurd heq.1 he
  case cons _ between =>
    simp only [List.cons_append, List.cons.injEq] at heq
    exact .tail _ (h between earlier heq.2)

theorem FlushedSince.flushed : FlushedSince (.flushed cpu :: history) asid cpu := by
  intro between earlier heq
  cases between
  case nil => simp at heq
  case cons =>
    simp only [List.cons_append, List.cons.injEq] at heq
    simp [← heq.1]

theorem FlushedSince.of_not_retired (h : .retired asid ∉ history) : FlushedSince history asid cpu :=
  fun _ _ heq => absurd (heq ▸ by simp) h

theorem FlushedBeforeReissue.cons {state state' : AsidState} {cpus : List Nat}
    (h : state.FlushedBeforeReissue cpus) (hs : state'.history = event :: state.history)
    (he : ∀ asid, event = .issued asid → ∀ cpu ∈ cpus, FlushedSince state.history asid cpu) :
    state'.FlushedBeforeReissue cpus := by
  intro asid later between earlier heq cpu hc
  rw [hs] at heq
  cases later
  case nil =>
    simp only [List.nil_append, List.cons.injEq] at heq
    exact he asid heq.1 cpu hc _ _ heq.2
  case cons _ later =>
    simp only [List.cons_append, List.cons.injEq] at heq
    exact h asid later between earlier heq.2 cpu hc


variable {state state' : AsidState} {values : τ → AsidPhase} {thread : τ} {g : AsidPhase} {arch : Arch}
variable {cpus : List Nat}

theorem placement_thread_ne {other : τ} (h : other ≠ thread) :
    state.placement (Function.update values thread g) asid (.thread other) =
    state.placement values asid (.thread other) := by
  simp [placement, h]

-- Identifiers move between the thread that takes a step and another place.
theorem Inv.move (h : state.Inv arch cpus values) (place : AsidPlace τ) (hne : place ≠ .thread thread)
    (hs : ∀ asid, 0 < asid → g.held.count asid + state'.placement values asid place =
      (values thread).held.count asid + state.placement values asid place)
    (ho : ∀ asid p, p ≠ place → (∀ t, p ≠ .thread t) →
      state'.placement values asid p = state.placement values asid p) :
    ∀ asid, 0 < asid → (state'.placement (Function.update values thread g) asid).Once := by
  intro asid ha
  refine (h.once asid ha).move (.thread thread) place hne.symm ?_ fun p hp hq => ?_
  case refine_1 =>
    rw [show state.placement values asid (.thread thread) = (values thread).held.count asid from rfl,
      ← hs asid ha]
    cases place
    case thread t => simp [placement, show t ≠ thread from fun h => hne (h ▸ rfl)]
    all_goals simp [placement]
  case refine_2 =>
    cases p
    case thread t =>
      have ht : t ≠ thread := fun h => hp (congrArg AsidPlace.thread h)
      rw [placement_thread_ne ht]
      rfl
    all_goals exact ho asid _ hq nofun

end AsidState

namespace AsidAllocator

variable {self allocator : AsidAllocator} {asid : Nat}

theorem allocateWithoutRecycling_cases (h : self.allocateWithoutRecycling = some (asid, allocator)) :
    (∃ reusable, self.reusable = asid :: reusable ∧ allocator = { self with reusable }) ∨
    (self.reusable = [] ∧ asid = self.nextAsid ∧ allocator = { self with nextAsid := self.nextAsid + 1 }) := by
  simp only [allocateWithoutRecycling] at h
  split at h
  case h_1 reusable heq =>
    simp only [Option.some.injEq, Prod.mk.injEq] at h
    obtain ⟨rfl, rfl⟩ := h
    exact .inl ⟨reusable, heq, rfl⟩
  case h_2 heq =>
    split at h
    case isTrue =>
      simp only [Option.some.injEq, Prod.mk.injEq] at h
      obtain ⟨rfl, rfl⟩ := h
      exact .inr ⟨heq, rfl, rfl⟩
    case isFalse => cases h

end AsidAllocator

namespace AsidState

variable {τ : Type} [DecidableEq τ] {state : AsidState} {values : τ → AsidPhase} {thread : τ}
variable {arch : Arch} {cpus retired flushed : List Nat} {asid cpu : Nat} {allocator : AsidAllocator}

-- What threads other than the one that takes a step recycle stays flushed.
theorem Inv.recycling_update {history : List AsidEvent} {g : AsidPhase} (h : state.Inv arch cpus values)
    (hg : ∀ retired flushed, g = .recycling retired flushed → ∀ asid ∈ retired, ∀ cpu ∈ flushed,
      FlushedSince history asid cpu)
    (ho : ∀ other retired flushed, other ≠ thread → values other = .recycling retired flushed →
      ∀ asid ∈ retired, ∀ cpu, FlushedSince state.history asid cpu → FlushedSince history asid cpu) :
    ∀ t retired flushed, Function.update values thread g t = .recycling retired flushed →
    ∀ asid ∈ retired, ∀ cpu ∈ flushed, FlushedSince history asid cpu := by
  intro t retired flushed heq asid ha cpu hc
  by_cases ht : t = thread
  case pos =>
    rw [ht, Function.update_self] at heq
    exact hg retired flushed heq asid ha cpu hc
  case neg =>
    rw [Function.update_of_ne ht] at heq
    exact ho t retired flushed ht heq asid ha cpu (h.recycling t retired flushed heq asid ha cpu hc)

theorem Inv.flush (h : state.Inv arch cpus values) (hg : values thread = .recycling retired flushed) :
    (state.record (.flushed cpu)).Inv arch cpus
      (Function.update values thread (.recycling retired (cpu :: flushed))) where
  once := h.move .live nofun (fun asid _ => by rw [hg]; rfl) fun _ _ _ _ => rfl
  seen asid ha := h.seen asid (by simpa [record] using ha)
  reusable hr asid ha cpu hc := (h.reusable hr asid ha cpu hc).cons nofun
  recycling := by
    refine h.recycling_update (fun _ _ heq asid ha cpu' hc => ?_) fun _ _ _ _ _ _ _ _ hf => hf.cons nofun
    cases heq
    cases hc
    case head => exact .flushed
    case tail hc => exact (h.recycling thread retired flushed hg asid ha cpu' hc).cons nofun
  reissued hr := (h.reissued hr).cons rfl nofun

-- Identifiers that have never been issued have never been retired.
omit [DecidableEq τ] in
theorem Inv.not_retired (h : state.Inv arch cpus values) :
    .retired state.allocator.nextAsid ∉ state.history :=
  fun hm => Nat.lt_irrefl _ (h.seen _ hm).2

theorem Inv.issue (h : state.Inv arch cpus values) (hg : values thread = .idle)
    (ha : state.allocator.allocateWithoutRecycling = some (asid, allocator)) :
    (state.issue asid allocator).Inv arch cpus (Function.update values thread (.given asid)) := by
  have hrecycling : ∀ t retired flushed, Function.update values thread (.given asid) t =
      .recycling retired flushed → ∀ asid' ∈ retired, ∀ cpu ∈ flushed,
      FlushedSince (.issued asid :: state.history) asid' cpu :=
    h.recycling_update nofun fun _ _ _ _ _ _ _ _ hf => hf.cons nofun
  rcases AsidAllocator.allocateWithoutRecycling_cases ha with ⟨reusable, hr, rfl⟩ | ⟨_, rfl, rfl⟩
  case inl =>
    exact {
      once := h.move .reusable nofun
        (fun asid' _ => by
          simp only [hg, AsidPhase.held, placement, AsidState.issue, hr, List.count_nil, List.count_cons]
          omega)
        fun _ p hp ht => by cases p <;> first | rfl | exact absurd rfl hp
      seen := fun asid' hm => h.seen asid' (by simpa [AsidState.issue] using hm)
      reusable := fun harch asid' hm cpu hc =>
        (h.reusable harch asid' (hr ▸ .tail _ hm) cpu hc).cons nofun
      recycling := hrecycling
      reissued := fun harch => (h.reissued harch).cons rfl fun asid' heq cpu hc => by
        cases heq
        exact h.reusable harch _ (hr ▸ .head _) cpu hc
    }
  case inr =>
    exact {
      once := h.move .unissued nofun
        (fun asid' _ => by
          simp only [hg, AsidPhase.held, placement, AsidState.issue, List.count_nil, List.count_singleton,
            beq_iff_eq]
          grind)
        fun _ p hp ht => by cases p <;> first | rfl | exact absurd rfl hp
      seen := fun asid' hm => by
        have := h.seen asid' (by simpa [AsidState.issue] using hm)
        simp only [AsidState.issue]
        omega
      reusable := fun harch asid' hm cpu hc => (h.reusable harch asid' hm cpu hc).cons nofun
      recycling := hrecycling
      reissued := fun harch => (h.reissued harch).cons rfl fun asid' heq cpu hc => by
        cases heq
        exact .of_not_retired h.not_retired
    }

theorem Inv.takeRetired (h : state.Inv arch cpus values) (hg : values thread = .idle) :
    Inv arch cpus { state with allocator := { state.allocator with retired := [] } }
      (Function.update values thread (.recycling state.allocator.retired [])) where
  once := h.move .retired nofun (fun asid _ => by simp [hg, AsidPhase.held, placement])
    fun _ p hp ht => by cases p <;> first | rfl | exact absurd rfl hp
  seen      := h.seen
  reusable  := h.reusable
  recycling := h.recycling_update (fun _ _ heq _ _ _ hc => by cases heq; cases hc) fun _ _ _ _ _ _ _ _ => id
  reissued  := h.reissued

theorem Inv.recycle (h : state.Inv arch cpus values) (hg : values thread = .recycling retired flushed)
    (hf : arch = .riscv64 → ∀ cpu ∈ cpus, cpu ∈ flushed) :
    Inv arch cpus { state with
      allocator := { state.allocator with reusable := retired.reverse ++ state.allocator.reusable } }
      (Function.update values thread .idle) where
  once := h.move .reusable nofun
    (fun asid _ => by simp [hg, AsidPhase.held, placement])
    fun _ p hp ht => by cases p <;> first | rfl | exact absurd rfl hp
  seen := h.seen
  reusable harch asid ha cpu hc := by
    cases List.mem_append.mp ha
    case inl ha =>
      exact h.recycling thread retired flushed hg asid (List.mem_reverse.mp ha) cpu (hf harch cpu hc)
    case inr ha => exact h.reusable harch asid ha cpu hc
  recycling := h.recycling_update nofun fun _ _ _ _ _ _ _ _ => id
  reissued  := h.reissued

-- An address space takes over the identifier that its thread was given.
theorem Inv.create (h : state.Inv arch cpus values) (hg : values thread = .given asid) :
    Inv arch cpus { state with live := asid :: state.live } (Function.update values thread .idle) where
  once := h.move .live nofun
    (fun asid' _ => by
      simp only [hg, AsidPhase.held, placement, List.count_nil, List.count_cons]
      omega)
    fun _ p hp ht => by cases p <;> first | rfl | exact absurd rfl hp
  seen      := h.seen
  reusable  := h.reusable
  recycling := h.recycling_update nofun fun _ _ _ _ _ _ _ _ => id
  reissued  := h.reissued

theorem Inv.createKernel (h : state.Inv arch cpus values) (ha : asid = 0) (hg : (values thread).held = []) :
    Inv arch cpus { state with live := asid :: state.live } (Function.update values thread .idle) where
  once := h.move .live nofun
    (fun asid' hpos => by
      rw [hg]
      simp [ha, AsidPhase.held, placement, Nat.ne_of_lt hpos])
    fun _ p hp ht => by cases p <;> first | rfl | exact absurd rfl hp
  seen      := h.seen
  reusable  := h.reusable
  recycling := h.recycling_update nofun fun _ _ _ _ _ _ _ _ => id
  reissued  := h.reissued

-- An identifier that an address space gives up is neither reusable nor about to be recycled.
theorem Inv.retire (h : state.Inv arch cpus values) (hg : values thread = .idle) (ha : asid ∈ state.live) :
    (AsidInstr.retireExec asid state).Inv arch cpus (Function.update values thread .idle) := by
  simp only [AsidInstr.retireExec, ne_eq, ite_not]
  split
  case isTrue h0 =>
    subst h0
    exact {
      once := h.move .live nofun
        (fun asid' hpos => by simp [hg, placement, List.count_erase, Nat.ne_of_lt hpos])
        fun _ p hp ht => by cases p <;> first | rfl | exact absurd rfl hp
      seen      := h.seen
      reusable  := h.reusable
      recycling := h.recycling_update nofun fun _ _ _ _ _ _ _ _ => id
      reissued  := h.reissued
    }
  case isFalse h0 =>
    have hpos : 0 < asid := Nat.pos_of_ne_zero h0
    have hlive : 0 < state.placement values asid .live := List.count_pos_iff.mpr ha
    have hsep (place : AsidPlace τ) (hp : place ≠ .live) : state.placement values asid place = 0 :=
      (h.once asid hpos).eq_zero hlive hp
    have hcons {asid' : Nat} (hm : asid' ≠ asid) {cpu} (hf : FlushedSince state.history asid' cpu) :
        FlushedSince (.retired asid :: state.history) asid' cpu :=
      hf.cons fun he => hm (AsidEvent.retired.inj he).symm
    exact {
      once := fun asid' hpos' => by
        refine (h.once asid' hpos').move .live .retired nofun ?_ fun p hp hq => ?_
        case refine_1 =>
          have := List.count_pos_iff.mpr ha
          simp only [placement, record, List.count_erase, List.count_append, List.count_singleton, beq_iff_eq]
          split_ifs <;> grind
        case refine_2 =>
          cases p
          case thread t =>
            by_cases ht : t = thread
            case pos => simp [placement, ht, hg]
            case neg => exact placement_thread_ne ht
          all_goals first | rfl | exact absurd rfl hp | exact absurd rfl hq
      seen := fun asid' hm => by
        cases List.mem_cons.mp hm
        case inl he =>
          cases he
          refine ⟨hpos, ?_⟩
          by_contra hn
          have := hsep .unissued nofun
          simp only [placement, record] at this hn
          split at this
          case isTrue => cases this
          case isFalse hlt => exact hlt (Nat.le_of_not_lt hn)
        case inr hm => exact h.seen asid' hm
      reusable := fun harch asid' hm cpu hc => hcons (fun he => by
          have := hsep .reusable nofun
          exact List.count_eq_zero.mp this (he ▸ hm)) (h.reusable harch asid' hm cpu hc)
      recycling := h.recycling_update nofun fun t retired flushed _ ht asid' hm cpu => hcons fun he => by
        have hz := hsep (.thread t) nofun
        simp only [placement, ht, AsidPhase.held] at hz
        exact List.count_eq_zero.mp hz (he ▸ hm)
      reissued := fun harch => (h.reissued harch).cons rfl nofun
    }

omit [DecidableEq τ] in
theorem Inv.uniqueLive (h : state.Inv arch cpus values) : state.UniqueLive := by
  simp only [UniqueLive, List.nodup_iff_count_le_one]
  intro asid
  by_cases ha : asid = 0
  case pos => simp [ha, List.count_eq_zero.mpr]
  case neg =>
    calc (state.live.filter (· ≠ 0)).count asid ≤ state.live.count asid := List.filter_sublist.count_le _
      _ ≤ 1 := (h.once asid (Nat.pos_of_ne_zero ha)).le_one .live

end AsidState

open AsidState

variable {τ : Type} [DecidableEq τ] {arch : Arch} {cpus : List Nat} {thread : τ}

def asidProtocol (arch : Arch) (cpus : List Nat) : Protocol (AsidInstr.machine (τ := τ)) AsidPhase where
  inv := AsidState.Inv arch cpus

theorem flushTlbAllCpus_wp (retired flushed cpus' : List Nat) :
    (asidProtocol arch cpus).wp thread (flushTlbAllCpus cpus')
      (fun _ g => g = .recycling retired (cpus'.reverse ++ flushed)) (.recycling retired flushed) := by
  induction cpus' generalizing flushed
  case nil => rfl
  case cons cpu cpus' hi =>
    refine .bind (.instr trivial fun state values _ state' hinv hg _ hx => ?_)
    simp only [AsidInstr.machine, Option.some.injEq, Prod.mk.injEq, true_and] at hx
    subst hx
    refine ⟨.recycling retired (cpu :: flushed), hinv.flush hg, (hi _).mono fun _ g h => ?_⟩
    simpa using h

theorem take_wp : (asidProtocol arch cpus).wp thread (liftM AsidInstr.take)
    (fun result g => match result with
      | .inl asid    => g = .given asid
      | .inr retired => g = .recycling retired []) .idle := by
  refine .instr trivial fun state values _ state' hinv hg _ hx => ?_
  simp only [AsidInstr.machine, AsidInstr.takeExec, Option.some.injEq] at hx
  split at hx
  case h_1 asid allocator ha =>
    cases hx
    exact ⟨.given asid, hinv.issue hg ha, rfl⟩
  case h_2 =>
    cases hx
    exact ⟨_, hinv.takeRetired hg, rfl⟩

theorem recycle_wp {retired flushed : List Nat} (hf : arch = .riscv64 → ∀ cpu ∈ cpus, cpu ∈ flushed) :
    (asidProtocol arch cpus).wp thread (liftM (AsidInstr.recycle retired))
      (fun asid g => g = .given asid ∨ asid = 0 ∧ g = .idle) (.recycling retired flushed) := by
  refine .instr trivial fun state values _ state' hinv hg _ hx => ?_
  have hrecycled := hinv.recycle hg hf
  simp only [AsidInstr.machine, AsidInstr.recycleExec, Option.some.injEq] at hx
  split at hx
  case h_1 asid allocator ha =>
    cases hx
    have hissued := hrecycled.issue (Function.update_self ..) ha
    rw [Function.update_idem] at hissued
    exact ⟨_, hissued, .inl rfl⟩
  case h_2 =>
    cases hx
    exact ⟨.idle, hrecycled, .inr ⟨rfl, rfl⟩⟩

-- The kernel's identifier 0 is given without a phase of its own.
theorem allocateAddressSpaceId_wp :
    (asidProtocol arch cpus).wp thread (allocateAddressSpaceId arch cpus)
      (fun asid g => g = .given asid ∨ asid = 0 ∧ g.held = []) .idle := by
  refine .bind (take_wp.mono fun result g hg => ?_)
  cases result
  case inl asid => exact .inl hg
  case inr retired =>
    subst hg
    dsimp only
    split
    case isTrue he => exact .inr ⟨rfl, List.isEmpty_iff.mp he⟩
    case isFalse =>
      have hgiven {asid : Nat} {g : AsidPhase} (h : g = .given asid ∨ asid = 0 ∧ g = .idle) :
          g = .given asid ∨ asid = 0 ∧ g.held = [] := by
        refine h.imp_right fun h0 => ⟨h0.left, ?_⟩
        rw [h0.right]
        rfl
      split
      case isTrue =>
        refine .bind ((flushTlbAllCpus_wp retired [] cpus).mono fun _ g hg => ?_)
        subst hg
        exact (recycle_wp fun _ cpu hc => by simpa using hc).mono fun _ _ => hgiven
      case isFalse harch => exact (recycle_wp fun h => absurd h harch).mono fun _ _ => hgiven

theorem create_wp {asid : Nat} {g : AsidPhase} (hg : g = .given asid ∨ asid = 0 ∧ g.held = []) :
    (asidProtocol arch cpus).wp thread (liftM (AsidInstr.create asid)) (fun _ g => g = .idle) g := by
  refine .instr trivial fun state values _ state' hinv hv _ hx => ?_
  simp only [AsidInstr.machine, Option.some.injEq, Prod.mk.injEq, true_and] at hx
  subst hx
  refine ⟨.idle, ?_, rfl⟩
  cases hg
  case inl hg => exact hinv.create (hv.trans hg)
  case inr hg =>
    exact hinv.createKernel hg.1 (hv ▸ hg.2)

theorem asidCall_wp {α : Type} {p : Prog AsidInstr α} (h : AsidCall arch cpus p) :
    (asidProtocol arch cpus).wp thread p (fun _ g => g = .idle) .idle := by
  cases h
  case newBare => exact .bind (allocateAddressSpaceId_wp.mono fun _ _ hg => create_wp hg)
  case drop asid =>
    refine .instr trivial fun state values _ state' hinv hv _ hx => ?_
    simp only [AsidInstr.machine] at hx
    split at hx
    case isTrue ha =>
      cases hx
      exact ⟨.idle, hinv.retire hv ha, rfl⟩
    case isFalse => cases hx

omit [DecidableEq τ] in
theorem AsidState.boot_inv (maxAsid : Nat) :
    (AsidState.boot maxAsid).Inv arch cpus (fun _ : τ => .idle) where
  once asid ha := by
    refine ⟨.unissued, ?_, fun p hp => ?_⟩
    case refine_1 => exact if_pos ha
    case refine_2 => cases p <;> first | rfl | exact absurd rfl hp
  seen      := nofun
  reusable  := nofun
  recycling := nofun
  reissued _ asid later between earlier heq := by simp [AsidState.boot] at heq

-- Threads create and destroy address spaces in any order, and their steps interleave in any way.
theorem asids_unique_and_flushed (arch : Arch) (cpus : List Nat) (maxAsid : Nat)
    (progs : τ → Prog AsidInstr Unit) (hp : ∀ t, (progs t).Calls (AsidCall arch cpus))
    (config : Config AsidInstr AsidState τ)
    (hr : Config.Reachable AsidInstr.machine (fun _ _ _ => True) ⟨.boot maxAsid, progs⟩ config) :
    config.state.UniqueLive ∧ (arch = .riscv64 → config.state.FlushedBeforeReissue cpus) := by
  have hsound : (asidProtocol arch cpus).Sound (fun _ g => g = .idle) ⟨.boot maxAsid, progs⟩
      (fun _ : τ => .idle) := {
    inv := AsidState.boot_inv maxAsid
    wp  := fun t => .calls (hp t) rfl fun hc hg => by rw [hg]; exact asidCall_wp hc
  }
  have ⟨values, h⟩ := Protocol.sound hsound (fun _ _ _ _ _ => trivial) hr
  exact ⟨h.inv.uniqueLive, h.inv.reissued⟩

-- Creates an address space with the only identifier there is, drops it and creates another one.
def recreate (arch : Arch) (cpus : List Nat) : Prog AsidInstr Unit := do
  createAddressSpace arch cpus
  AsidInstr.retire 1
  createAddressSpace arch cpus
  pure ()

theorem recreate_calls (arch : Arch) (cpus : List Nat) : (recreate arch cpus).Calls (AsidCall arch cpus) :=
  .call .newBare fun _ => .call (.drop 1) fun _ => .call .newBare fun _ => .done

-- On RISC-V, the second address space is created after both processors were flushed.
theorem recreated_unique_and_flushed : ∃ config : Config AsidInstr AsidState Unit,
    config.state.history = [.issued 1, .flushed 1, .flushed 0, .retired 1, .issued 1] ∧
    config.state.UniqueLive ∧ config.state.FlushedBeforeReissue [0, 1] := by
  have ⟨config, hr, hs⟩ := Config.Reachable.of_run_state AsidInstr.machine
    ⟨.boot 1, fun _ : Unit => recreate .riscv64 [0, 1]⟩ (List.replicate 8 ()) rfl
  have h := asids_unique_and_flushed .riscv64 [0, 1] 1 _ (fun _ => recreate_calls _ _) config hr
  exact ⟨config, by rw [hs]; rfl, h.1, h.2 rfl⟩

-- On LoongArch, no processor is flushed in between.
theorem loongarch64_reissues_unflushed : (recreate .loongarch64 [0, 1]).Calls (AsidCall .loongarch64 [0, 1]) ∧
    ∃ config : Config AsidInstr AsidState Unit, Config.Reachable AsidInstr.machine (fun _ _ _ => True)
      ⟨.boot 1, fun _ => recreate .loongarch64 [0, 1]⟩ config ∧
    ¬config.state.FlushedBeforeReissue [0, 1] := by
  have ⟨config, hr, hs⟩ := Config.Reachable.of_run_state AsidInstr.machine
    ⟨.boot 1, fun _ : Unit => recreate .loongarch64 [0, 1]⟩ (List.replicate 6 ()) rfl
  refine ⟨recreate_calls .., config, hr, fun h => ?_⟩
  have := h 1 [] [] [.issued 1] (by rw [hs]; rfl) 0 (by simp)
  cases this

end WllOs
