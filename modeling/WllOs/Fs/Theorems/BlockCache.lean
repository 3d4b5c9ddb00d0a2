import WllOs.Fs.BlockCache

namespace WllOs.Fs

namespace BlockCache

-- The ages are those of the blocks, of which there are not too many, and something is known of each of them.
structure Holds (known : Nat → Block → Prop) (cache : BlockCache) : Prop where
  linked : cache.blocks.Linked
  size : cache.blocks.size ≤ BLOCK_CACHE_LIMIT
  known : ∀ block data, cache.blocks.lookup block = some data → known block data

variable {known known' : Nat → Block → Prop} {cache : BlockCache}

theorem Holds.mono (h : cache.Holds known) (hk : ∀ block data, known block data → known' block data) :
    cache.Holds known' :=
  ⟨h.linked, h.size, fun block data hl => hk block data (h.known block data hl)⟩

theorem Holds.new : BlockCache.new.Holds known :=
  ⟨.empty, Nat.zero_le _, nofun⟩

-- A block that is known becomes the last one.
theorem Holds.set (h : cache.Holds known) {block : Nat} {data : Block} (hk : known block data) {age age' : Nat}
    (hs : (cache.blocks.lookup block).isNone → cache.blocks.size < BLOCK_CACHE_LIMIT) :
    (⟨cache.blocks.set block data age, age'⟩ : BlockCache).Holds known := by
  constructor
  case linked => exact h.linked.set block data age
  case size =>
    have := h.size
    rw [AgedMap.size_set]
    split
    case isTrue hn => exact hs hn
    case isFalse => exact h.size
  case known =>
    intro block' data' hl
    by_cases hb : block' = block
    case pos =>
      subst hb
      simp only [AgedMap.lookup_set, Option.some.injEq] at hl
      rwa [← hl]
    case neg =>
      rw [AgedMap.lookup_set_of_ne hb] at hl
      exact h.known block' data' hl

theorem Holds.get (h : cache.Holds known) (block : Nat) :
    (∀ data, (cache.get block).fst = some data → known block data) ∧ (cache.get block).snd.Holds known := by
  simp only [BlockCache.get, bumpAge]
  cases hl : cache.blocks.lookup block
  case none => exact ⟨nofun, h.linked, h.size, h.known⟩
  case some data =>
    have hk := h.known block data hl
    refine ⟨fun data' he => ?_, h.set hk fun hn => ?_⟩
    · rwa [← Option.some.inj he]
    · simp [hl] at hn

theorem Holds.removeOldest (h : cache.Holds known) (age : Nat) :
    (⟨cache.blocks.removeOldest, age⟩ : BlockCache).Holds known ∧
      (0 < cache.blocks.size → cache.blocks.removeOldest.size < cache.blocks.size) := by
  have hlt (hs : 0 < cache.blocks.size) : cache.blocks.removeOldest.size < cache.blocks.size := by
    have := h.linked.size_removeOldest hs
    omega
  refine ⟨⟨h.linked.removeOldest, ?_, ?_⟩, hlt⟩
  · have := h.size
    obtain hz | hp := Nat.eq_zero_or_pos cache.blocks.size
    · cases ho : cache.blocks.oldest
      case none => simpa [AgedMap.removeOldest, ho] using h.size
      case some aged =>
        have := cache.blocks.size_remove (ofLex aged).snd
        rw [h.linked.removeOldest_eq ho]
        dsimp only
        omega
    · have := hlt hp
      dsimp only
      omega
  · intro block data hl
    cases ho : cache.blocks.oldest
    case none =>
      simp only [AgedMap.removeOldest, ho] at hl
      exact h.known block data hl
    case some aged =>
      simp only [h.linked.removeOldest_eq ho] at hl
      by_cases hb : block = (ofLex aged).snd
      case pos => simp [hb] at hl
      case neg =>
        rw [AgedMap.lookup_remove_of_ne hb] at hl
        exact h.known block data hl

theorem Holds.insert (h : cache.Holds known) {block : Nat} {data : Block} (hk : known block data) :
    (cache.insert block data).Holds known := by
  rw [BlockCache.insert]
  have ⟨hr, hlt⟩ := h.removeOldest cache.nextAge
  dsimp only
  split
  case isTrue hfull =>
    apply hr.set hk
    intro _
    have := hlt (Nat.lt_of_lt_of_le (by decide) hfull.right)
    exact Nat.lt_of_lt_of_le this h.size
  case isFalse hfull =>
    apply h.set hk
    intro hn
    exact Nat.not_le.mp fun hle => hfull ⟨hn, hle⟩

theorem Holds.insertAll (h : cache.Holds known) {blocks : List (Nat × Block)}
    (hk : ∀ block data, (block, data) ∈ blocks → known block data) :
    (blocks.foldl (fun cache (block, data) => cache.insert block data) cache).Holds known := by
  induction blocks generalizing cache
  case nil => exact h
  case cons head blocks hi =>
    have hhead := h.insert (hk head.fst head.snd List.mem_cons_self)
    exact hi hhead fun block data hm => hk block data (List.mem_cons_of_mem _ hm)

-- The offsets stay the same, and a block that is found is known.
theorem Holds.getMissing (h : cache.Holds known) (blocks : List (Nat × Option Block)) :
    (cache.getMissing blocks).fst.map Prod.fst = blocks.map Prod.fst ∧
      (∀ block data, (block, some data) ∈ (cache.getMissing blocks).fst →
        (block, some data) ∈ blocks ∨ known block data) ∧
      (cache.getMissing blocks).snd.Holds known := by
  induction blocks generalizing cache
  case nil => exact ⟨rfl, nofun, h⟩
  case cons head blocks hi =>
    match head with
    | (block, some data) =>
      have ⟨hf, hs, hc⟩ := hi h
      refine ⟨congrArg (block :: ·) hf, fun block' data' hm => ?_, hc⟩
      obtain he | hm := List.mem_cons.mp hm
      · exact .inl (he ▸ List.mem_cons_self)
      · exact (hs block' data' hm).imp_left (List.mem_cons_of_mem _)
    | (block, none) =>
      have ⟨hg, hc⟩ := h.get block
      have ⟨hf, hs, hc⟩ := hi hc
      refine ⟨congrArg (block :: ·) hf, fun block' data' hm => ?_, hc⟩
      obtain he | hm := List.mem_cons.mp hm
      · simp only [Prod.mk.injEq] at he
        rw [he.left]
        exact .inr (hg data' he.right.symm)
      · exact (hs block' data' hm).imp_left (List.mem_cons_of_mem _)

theorem Holds.removeAll (h : cache.Holds known) (victims : List Nat) :
    (⟨victims.foldl AgedMap.remove cache.blocks, cache.nextAge⟩ : BlockCache).Holds
      fun block data => known block data ∧ block ∉ victims := by
  induction victims generalizing cache known
  case nil => exact h.mono fun block data hk => ⟨hk, List.not_mem_nil⟩
  case cons victim victims hi =>
    have hsize : (cache.blocks.remove victim).size ≤ BLOCK_CACHE_LIMIT := by
      have := cache.blocks.size_remove victim
      have := h.size
      omega
    have hknown (block : Nat) (data : Block) (hl : (cache.blocks.remove victim).lookup block = some data) :
        known block data ∧ block ≠ victim := by
      have hne : block ≠ victim := by
        intro he
        simp [he] at hl
      rw [AgedMap.lookup_remove_of_ne hne] at hl
      exact ⟨h.known block data hl, hne⟩
    have hv : (⟨cache.blocks.remove victim, cache.nextAge⟩ : BlockCache).Holds _ :=
      ⟨h.linked.remove victim, hsize, hknown⟩
    exact (hi hv).mono fun block data hk => ⟨hk.left.left, by simp [hk.left.right, hk.right]⟩

-- No byte of the range is in a block that is left.
theorem Holds.invalidateRange (h : cache.Holds known) (ha : ∀ block data, known block data → block % EXT4_BLOCK_SIZE = 0)
    (start len : Nat) : (cache.invalidateRange start len).Holds fun block data => known block data ∧
      ∀ i, block ≤ i → i < block + EXT4_BLOCK_SIZE → start ≤ i → ¬i < start + len := by
  rw [BlockCache.invalidateRange]
  cases he : Usize.checkedAdd start len
  case none => exact ⟨.empty, Nat.zero_le _, nofun⟩
  case some «end» =>
    have hend := (Usize.checkedAdd_eq_some.mp he).left
    dsimp only
    split
    case isTrue hs => exact h.mono fun block data hk => ⟨hk, fun i _ _ _ _ => by omega⟩
    case isFalse hs =>
      apply (h.removeAll _).mono
      intro block data ⟨hk, hn⟩
      refine ⟨hk, fun i hle hlt hge hlt' => hn ?_⟩
      have hb := ha block data hk
      simp only [List.mem_range', EXT4_BLOCK_SIZE] at hb hlt ⊢
      refine ⟨(block - start / 4096 * 4096) / 4096, ?_, ?_⟩ <;> omega

end BlockCache

-- What a thread does with the lock of the device: it knows what the device holds, or it has invalidated a range that
-- it is about to write.
inductive BlockPhase
  | idle
  | holding (device : Nat → UInt8)
  | invalidated (start len : Nat)

-- What a thread may have seen of the device during its call.
structure BlockProgress where
  phase : BlockPhase
  calledAt : Nat
  seen : BlockBytes → Prop

def BlockProgress.new : BlockProgress :=
  ⟨.idle, 0, fun _ => False⟩

-- A thread that calls nothing.
def BlockProgress.Idle (g : BlockProgress) : Prop :=
  g.phase = .idle

-- A call goes on, and it forgets nothing.
structure BlockProgress.Grows (g g' : BlockProgress) : Prop where
  calledAt : g'.calledAt = g.calledAt
  seen : ∀ bytes, g.seen bytes → g'.seen bytes

theorem BlockProgress.Grows.trans {g g' g'' : BlockProgress} (h : g.Grows g') (h' : g'.Grows g'') : g.Grows g'' :=
  ⟨h'.calledAt.trans h.calledAt, fun bytes hs => h'.seen bytes (h.seen bytes hs)⟩

namespace BlockRange

variable {range : BlockRange} {offset len abs : Nat}

theorem checkedAbsRange_eq (h : range.checkedAbsRange offset len = some abs) : abs = range.start + offset := by
  simp only [checkedAbsRange, bind, Option.bind_eq_some_iff] at h
  have ⟨_, _, h⟩ := h
  split at h
  case isTrue => cases h
  case isFalse => exact (Usize.checkedAdd_eq_some.mp h).left.symm

end BlockRange

namespace BlockState

variable {τ : Type} {range : BlockRange} {state state' : BlockState τ} {values : τ → BlockProgress}
variable {first last : Nat} {held : (Nat → UInt8) → Prop} {read : ReturnedRead} {block : Nat} {data : Block}

-- A block that may be cached.
structure Cachable (range : BlockRange) (device : Nat → UInt8) (values : τ → BlockProgress) (block : Nat) (data : Block) :
    Prop where
  aligned : block % EXT4_BLOCK_SIZE = 0
  current : BlockBytes.Current range device ⟨block, EXT4_BLOCK_SIZE, data⟩
  valid : ∀ t start len, (values t).phase = .invalidated start len → ∀ i, block ≤ i → i < block + EXT4_BLOCK_SIZE →
    start ≤ i → ¬i < start + len

structure ThreadInv (range : BlockRange) (state : BlockState τ) (t : τ) (g : BlockProgress) : Prop where
  lock : state.ioLock = some t ↔ g.phase ≠ .idle
  device : ∀ device, g.phase = .holding device → state.device = device
  calledAt : g.calledAt ≤ state.past.length
  seen : ∀ bytes, g.seen bytes → state.HeldBetween g.calledAt state.past.length (bytes.Current range)

structure Inv (range : BlockRange) (state : BlockState τ) (values : τ → BlockProgress) : Prop where
  threads : ∀ t, ThreadInv range state t (values t)
  cache : state.cache.Holds (Cachable range state.device values)
  reads : state.ReadsSound range

theorem moments_push (state : BlockState τ) (device : Nat → UInt8) :
    state.moments <+: ({ state with device, past := state.past ++ [state.device] } : BlockState τ).moments :=
  ⟨[device], rfl⟩

theorem HeldBetween.mono (h : state.HeldBetween first last held) (hm : state.moments <+: state'.moments) {last' : Nat}
    (hl : last ≤ last') : state'.HeldBetween first last' held := by
  have ⟨t, device, hf, ht, hd, hh⟩ := h
  have ⟨later, he⟩ := hm
  refine ⟨t, device, hf, by omega, ?_, hh⟩
  rw [← he, List.getElem?_append_left (List.getElem?_eq_some_iff.mp hd).choose, hd]

-- What the device holds now.
theorem HeldBetween.now (hf : first ≤ state.past.length) (hh : held state.device) :
    state.HeldBetween first state.past.length held :=
  ⟨state.past.length, state.device, hf, Nat.le_refl _, by simp [moments], hh⟩

theorem HeldBetween.imp (h : state.HeldBetween first last held) {held' : (Nat → UInt8) → Prop}
    (hh : ∀ device, held device → held' device) : state.HeldBetween first last held' :=
  have ⟨t, device, hf, ht, hd, h⟩ := h
  ⟨t, device, hf, ht, hd, hh device h⟩

theorem AtOneMoment.blockwise (h : state.AtOneMoment range read) : state.BlockwiseAtMoments range read :=
  fun _ _ _ => HeldBetween.imp h fun _ hc i _ _ => hc i

theorem ReadsSound.mono (h : state.ReadsSound range) (hm : state.moments <+: state'.moments)
    (hr : state'.returned = state.returned) : state'.ReadsSound range where
  whole read hread hk := HeldBetween.mono (h.whole read (hr ▸ hread) hk) hm (Nat.le_refl _)
  block read hread ha hi := HeldBetween.mono (h.block read (hr ▸ hread) ha hi) hm (Nat.le_refl _)
  joined read hread block ha hi := HeldBetween.mono (h.joined read (hr ▸ hread) block ha hi) hm (Nat.le_refl _)

-- The cache is a different one.
theorem Inv.setCache (h : Inv range state values) {cache : BlockCache}
    (hc : cache.Holds (Cachable range state.device values)) : Inv range { state with cache } values :=
  ⟨fun t => ⟨(h.threads t).lock, (h.threads t).device, (h.threads t).calledAt, (h.threads t).seen⟩, hc,
    ⟨h.reads.whole, h.reads.block, h.reads.joined⟩⟩

-- Only one thread holds the lock.
theorem Inv.exclusive (h : Inv range state values) {t t' : τ} (ht : (values t).phase ≠ .idle)
    (ht' : (values t').phase ≠ .idle) : t = t' :=
  Option.some.inj (((h.threads t).lock.mpr ht).symm.trans ((h.threads t').lock.mpr ht'))

variable {thread : τ} {g g' : BlockProgress} {device : Nat → UInt8}

-- The device holds what the thread knows.
theorem Inv.holding (h : Inv range state values) (hv : values thread = g) (hg : g.phase = .holding device) :
    state.device = device :=
  (h.threads thread).device device (hv ▸ hg)

variable [DecidableEq τ]

-- What holds of the other threads, and of the one that takes a step.
theorem threads_update {p : τ → BlockProgress → Prop} (hg : p thread g) (ho : ∀ t ≠ thread, p t (values t)) (t : τ) :
    p t (Function.update values thread g t) :=
  (Function.forall_update_iff values p).mpr ⟨hg, ho⟩ t

theorem Cachable.update {device : Nat → UInt8} (h : Cachable range device values block data)
    (hg : ∀ start len, g.phase ≠ .invalidated start len) :
    Cachable range device (Function.update values thread g) block data where
  aligned := h.aligned
  current := h.current
  valid t start len ht := by
    by_cases he : t = thread
    case pos =>
      rw [he, Function.update_self] at ht
      exact absurd ht (hg start len)
    case neg =>
      rw [Function.update_of_ne he] at ht
      exact h.valid t start len ht

-- A thread sees what the device holds now.
theorem Inv.see (h : Inv range state values) (thread : τ) :
    Inv range state (Function.update values thread { values thread with
      seen := fun bytes => (values thread).seen bytes ∨ bytes.Current range state.device }) := by
  have ht := h.threads thread
  refine ⟨threads_update ⟨ht.lock, ht.device, ht.calledAt, ?_⟩ fun t _ => h.threads t, ?_, h.reads⟩
  · intro bytes hs
    obtain hs | hc := hs
    · exact ht.seen bytes hs
    · exact .now ht.calledAt hc
  · apply h.cache.mono
    intro block data hc
    refine ⟨hc.aligned, hc.current, fun t start len he => hc.valid t start len ?_⟩
    by_cases heq : t = thread
    case pos => simpa [heq] using he
    case neg => rwa [Function.update_of_ne heq] at he

def protocol (range : BlockRange) : Protocol (BlockInstr.machine range (τ := τ)) BlockProgress where
  inv := Inv range

theorem wp_get (block : Nat) : (protocol range).wp thread (liftM (BlockInstr.get block)) (fun data g' =>
    g.Grows g' ∧ g'.phase = g.phase ∧ ∀ bytes, data = some bytes → g'.seen ⟨block, EXT4_BLOCK_SIZE, bytes⟩) g := by
  apply Protocol.wp.total (fun _ => rfl) trivial
  intro state values hinv hv _
  have ⟨hd, hc⟩ := hinv.cache.get block
  have hsee := (hinv.setCache hc).see thread
  rw [hv] at hsee
  exact ⟨_, hsee, ⟨rfl, fun _ => .inl⟩, rfl, fun bytes he => .inr (hd bytes he).current⟩

theorem wp_getMissing (blocks : List (Nat × Option Block))
    (hs : ∀ block bytes, (block, some bytes) ∈ blocks → g.seen ⟨block, EXT4_BLOCK_SIZE, bytes⟩) :
    (protocol range).wp thread (liftM (BlockInstr.getMissing blocks)) (fun blocks' g' =>
      g.Grows g' ∧ g'.phase = g.phase ∧ blocks'.map Prod.fst = blocks.map Prod.fst ∧
        ∀ block bytes, (block, some bytes) ∈ blocks' → g'.seen ⟨block, EXT4_BLOCK_SIZE, bytes⟩) g := by
  apply Protocol.wp.total (fun _ => rfl) trivial
  intro state values hinv hv _
  have ⟨hf, hd, hc⟩ := hinv.cache.getMissing blocks
  have hsee := (hinv.setCache hc).see thread
  rw [hv] at hsee
  exact ⟨_, hsee, ⟨rfl, fun _ => .inl⟩, rfl, hf, fun block bytes hm =>
    (hd block bytes hm).imp (hs block bytes) Cachable.current⟩

theorem wp_lockIo : (protocol range).wp thread (liftM BlockInstr.lockIo) (fun _ g' =>
    g.Grows g' ∧ ∃ device, g'.phase = .holding device) g := by
  apply Protocol.wp.instr trivial
  intro state values _ state' hinv hv _ hx
  simp only [BlockInstr.machine, Option.ite_none_right_eq_some, Option.some.injEq, Prod.mk.injEq, true_and] at hx
  have ⟨hn, he⟩ := hx
  subst he
  have ht := hinv.threads thread
  rw [hv] at ht
  refine ⟨{ g with phase := .holding state.device }, ⟨?_, ?_, ?_⟩, ⟨rfl, fun _ => id⟩, _, rfl⟩
  · apply threads_update
    · exact ⟨by simp, fun device he => BlockPhase.holding.inj he, ht.calledAt, ht.seen⟩
    · intro t hne
      have ho := hinv.threads t
      have hidle : (values t).phase = .idle := by
        by_contra hi
        rw [ho.lock.mpr hi] at hn
        cases hn
      exact ⟨by simp [hidle, hne.symm], ho.device, ho.calledAt, ho.seen⟩
  · exact hinv.cache.mono fun block data hc => hc.update nofun
  · exact hinv.reads.mono (List.prefix_refl _) rfl

theorem wp_unlockIo (hg : g.phase ≠ .idle) : (protocol range).wp thread (liftM BlockInstr.unlockIo) (fun _ g' =>
    g.Grows g' ∧ g'.phase = .idle) g := by
  apply Protocol.wp.total (fun _ => rfl) trivial
  intro state values hinv hv _
  have ht := hinv.threads thread
  rw [hv] at ht
  refine ⟨{ g with phase := .idle }, ⟨?_, ?_, ?_⟩, ⟨rfl, fun _ => id⟩, rfl⟩
  · apply threads_update
    · exact ⟨by simp, nofun, ht.calledAt, ht.seen⟩
    · intro t hne
      have ho := hinv.threads t
      have hidle : (values t).phase = .idle := by
        by_contra hi
        exact hne (hinv.exclusive hi (hv ▸ hg))
      exact ⟨by simp [hidle], ho.device, ho.calledAt, ho.seen⟩
  · exact hinv.cache.mono fun block data hc => hc.update nofun
  · exact hinv.reads.mono (List.prefix_refl _) rfl

theorem wp_insertAll (hg : g.phase = .holding device) {blocks : List (Nat × Block)}
    (hb : ∀ block data, (block, data) ∈ blocks → block % EXT4_BLOCK_SIZE = 0 ∧
      BlockBytes.Current range device ⟨block, EXT4_BLOCK_SIZE, data⟩) :
    (protocol range).wp thread (liftM (BlockInstr.insertAll blocks)) (fun _ g' => g' = g) g := by
  apply Protocol.wp.total (fun _ => rfl) trivial
  intro state values hinv hv _
  have hd := hinv.holding hv hg
  refine ⟨g, ?_, rfl⟩
  rw [← hv, Function.update_eq_self]
  apply hinv.setCache (hinv.cache.insertAll _)
  intro block data hm
  have ⟨ha, hc⟩ := hb block data hm
  refine ⟨ha, hd ▸ hc, fun t start len ht => ?_⟩
  have heq : t = thread := hinv.exclusive (by simp [ht]) (by simp [hv, hg])
  rw [heq, hv, hg] at ht
  cases ht

theorem wp_readRawAt (hg : g.phase = .holding device) (offset len : Nat) :
    (protocol range).wp thread (liftM (BlockInstr.readRawAt offset len)) (fun data g' =>
      g.Grows g' ∧ g'.phase = .holding device ∧ (∀ bytes, bytes.Current range device → g'.seen bytes) ∧
        data = (range.checkedAbsRange offset len).map fun abs (i : Fin len) => device (abs + i)) g := by
  apply Protocol.wp.total (fun _ => rfl) trivial
  intro state values hinv hv _
  have hd := hinv.holding hv hg
  have hsee := hinv.see thread
  rw [hv] at hsee
  exact ⟨_, hsee, ⟨rfl, fun _ => .inl⟩, hg, fun bytes hc => .inr (hd ▸ hc), by rw [hd]⟩

theorem wp_invalidateRange (hg : g.phase = .holding device) (start len : Nat) :
    (protocol range).wp thread (liftM (BlockInstr.invalidateRange start len)) (fun _ g' =>
      g.Grows g' ∧ g'.phase = .invalidated start len) g := by
  apply Protocol.wp.total (fun _ => rfl) trivial
  intro state values hinv hv _
  have ht := hinv.threads thread
  rw [hv] at ht
  have hc := hinv.cache.invalidateRange (fun _ _ hc => hc.aligned) start len
  refine ⟨{ g with phase := .invalidated start len }, ⟨?_, ?_, ?_⟩, ⟨rfl, fun _ => id⟩, rfl⟩
  · apply threads_update
    · exact ⟨by simp [ht.lock, hg], nofun, ht.calledAt, ht.seen⟩
    · exact fun t _ => ⟨(hinv.threads t).lock, (hinv.threads t).device, (hinv.threads t).calledAt, (hinv.threads t).seen⟩
  · apply hc.mono
    intro block data ⟨hc, hm⟩
    refine ⟨hc.aligned, hc.current, fun t start' len' he => ?_⟩
    by_cases heq : t = thread
    case pos =>
      rw [heq, Function.update_self] at he
      cases he
      exact hm
    case neg =>
      rw [Function.update_of_ne heq] at he
      exact hc.valid t start' len' he
  · exact hinv.reads.mono (List.prefix_refl _) rfl

theorem wp_writeRawAt {offset : Nat} {data : List UInt8} (hg : g.phase = .invalidated offset data.length) :
    (protocol range).wp thread (liftM (BlockInstr.writeRawAt offset data)) (fun _ g' =>
      g.Grows g' ∧ g'.phase ≠ .idle) g := by
  apply Protocol.wp.instr trivial
  intro state values written state' hinv hv _ hx
  have ht := hinv.threads thread
  rw [hv] at ht
  have hne : g.phase ≠ .idle := by simp [hg]
  refine ⟨g, ?_, ⟨rfl, fun _ => id⟩, hne⟩
  rw [← hv, Function.update_eq_self]
  simp only [BlockInstr.machine] at hx
  cases ha : range.checkedAbsRange offset data.length
  case none =>
    rw [ha] at hx
    cases hx
    exact hinv
  case some abs =>
    rw [ha] at hx
    have hm := state.moments_push fun i =>
      if abs ≤ i ∧ i < abs + data.length then data.getD (i - abs) 0 else state.device i
    cases hx
    have habs := BlockRange.checkedAbsRange_eq ha
    refine ⟨fun t => ?_, ?_, hinv.reads.mono hm rfl⟩
    · have ho := hinv.threads t
      refine ⟨ho.lock, fun device hd => ?_, ?_, fun bytes hs => (ho.seen bytes hs).mono hm ?_⟩
      · have heq : t = thread := hinv.exclusive (by simp [hd]) (by simp [hv, hg])
        rw [heq, hv, hg] at hd
        cases hd
      · have := ho.calledAt
        simp only [List.length_append, List.length_singleton]
        omega
      · simp
    · apply hinv.cache.mono
      intro block bytes hc
      refine ⟨hc.aligned, fun i => ?_, hc.valid⟩
      have hi : (i : Nat) < EXT4_BLOCK_SIZE := i.isLt
      have hmiss := hc.valid thread offset data.length (by rw [hv, hg]) (block + i) (by omega) (by omega)
      have hcurrent := hc.current i
      dsimp only at hcurrent ⊢
      rw [if_neg (by omega)]
      exact hcurrent

theorem wp_call : (protocol range).wp thread (liftM BlockInstr.call) (fun calledAt g' =>
    g'.calledAt = calledAt ∧ g'.phase = g.phase) g := by
  apply Protocol.wp.total (fun _ => rfl) trivial
  intro state values hinv hv _
  have ht := hinv.threads thread
  rw [hv] at ht
  refine ⟨⟨g.phase, state.past.length, fun _ => False⟩, ⟨?_, ?_, hinv.reads⟩, rfl, rfl⟩
  · exact threads_update ⟨ht.lock, ht.device, Nat.le_refl _, nofun⟩ fun t _ => hinv.threads t
  · apply hinv.cache.mono
    intro block data hc
    refine ⟨hc.aligned, hc.current, fun t start len he => hc.valid t start len ?_⟩
    by_cases heq : t = thread
    case pos =>
      rw [heq, Function.update_self] at he
      rw [heq, hv, ← he]
    case neg => rwa [Function.update_of_ne heq] at he

-- The bytes of a block have been seen, if it lies in the range.
def PartSeen (range : BlockRange) (seen : BlockBytes → Prop) (read : BlockBytes) (block : Nat) : Prop :=
  (range.checkedAbsRange block EXT4_BLOCK_SIZE).isSome →
    ∃ data : Block, seen ⟨block, EXT4_BLOCK_SIZE, data⟩ ∧ ∀ (i : Fin read.len) (_ : block ≤ read.offset + i)
      (h : read.offset + i - block < EXT4_BLOCK_SIZE), read.bytes i = data ⟨read.offset + i - block, h⟩

-- So have the bytes of all blocks of which there are any.
def Blockwise (range : BlockRange) (seen : BlockBytes → Prop) (read : BlockBytes) : Prop :=
  ∀ block (i : Fin read.len), block % EXT4_BLOCK_SIZE = 0 → block ≤ read.offset + i →
    read.offset + i < block + EXT4_BLOCK_SIZE → PartSeen range seen read block

-- What a call may return.
def Sound (range : BlockRange) (seen : BlockBytes → Prop) (kind : BlockCallKind) (read : BlockBytes) : Prop :=
  seen read ∨ (kind = .readOffset ∧ (read.offset % EXT4_BLOCK_SIZE = 0 →
    ¬(range.checkedAbsRange read.offset EXT4_BLOCK_SIZE).isSome) ∧ Blockwise range seen read)

theorem wp_finish {kind : BlockCallKind} {reads : List BlockBytes}
    (hr : ∀ read ∈ reads, Sound range g.seen kind read) :
    (protocol range).wp thread (liftM (BlockInstr.finish kind g.calledAt reads)) (fun _ g' => g' = g) g := by
  apply Protocol.wp.total (fun _ => rfl) trivial
  intro state values hinv hv _
  have ht := hinv.threads thread
  rw [hv] at ht
  refine ⟨g, ?_, rfl⟩
  rw [← hv, Function.update_eq_self, hv]
  refine ⟨fun t => ⟨(hinv.threads t).lock, (hinv.threads t).device, (hinv.threads t).calledAt, (hinv.threads t).seen⟩,
    hinv.cache, ?_, ?_, ?_⟩
  · intro read hm hk
    obtain hm | hm := List.mem_append.mp hm
    · obtain ⟨bytes, hb, he⟩ := List.mem_map.mp hm
      subst he
      obtain hs | hs := hr bytes hb
      · exact ht.seen bytes hs
      · exact absurd hs.left hk
    · exact hinv.reads.whole read hm hk
  · intro read hm ha hi
    obtain hm | hm := List.mem_append.mp hm
    · obtain ⟨bytes, hb, he⟩ := List.mem_map.mp hm
      subst he
      obtain hs | hs := hr bytes hb
      · exact ht.seen bytes hs
      · exact absurd hi (hs.right.left ha)
    · exact hinv.reads.block read hm ha hi
  · intro read hm
    obtain hm | hm := List.mem_append.mp hm
    · obtain ⟨bytes, hb, he⟩ := List.mem_map.mp hm
      subst he
      obtain hs | hs := hr bytes hb
      · exact AtOneMoment.blockwise (ht.seen bytes hs)
      · intro block ha hi
        by_cases hpart : ∃ i : Fin bytes.len, block ≤ bytes.offset + i ∧ bytes.offset + i < block + EXT4_BLOCK_SIZE
        case neg => exact .now ht.calledAt fun i hle hlt => absurd ⟨i, hle, hlt⟩ hpart
        have ⟨i, hle, hlt⟩ := hpart
        have ⟨data, hd, hbytes⟩ := hs.right.right block i ha hle hlt hi
        apply HeldBetween.imp (ht.seen _ hd)
        intro device hc i hle hlt
        dsimp only at hle hlt ⊢
        have hlt : bytes.offset + i - block < EXT4_BLOCK_SIZE := by omega
        have hc := hc ⟨_, hlt⟩
        dsimp only at hc
        rw [hbytes i hle hlt, hc]
        congr 1
        omega
    · exact hinv.reads.joined read hm

end BlockState

namespace BlockRange

open BlockState

variable {τ : Type} [DecidableEq τ] {range : BlockRange} {thread : τ} {g : BlockProgress} {device : Nat → UInt8}
variable {offset len : Nat}

theorem wp_readAt (offset len : Nat) :
    (protocol range).wp thread (readAt offset len) (fun buf g' =>
      g.Grows g' ∧ g'.phase = .idle ∧ ∀ bytes, buf = some bytes → g'.seen ⟨offset, len, bytes⟩) g := by
  apply Protocol.wp.bind
  apply wp_lockIo.mono
  intro _ g₁ ⟨hg₁, device, hd⟩
  apply Protocol.wp.bind
  apply (wp_readRawAt hd offset len).mono
  intro buf g₂ ⟨hg₂, hd, hs, hb⟩
  apply Protocol.wp.bind
  apply (wp_unlockIo (by simp [hd])).mono
  intro _ g₃ ⟨hg₃, hi⟩
  refine ⟨(hg₁.trans hg₂).trans hg₃, hi, fun bytes he => hg₃.seen _ (hs _ fun i => ?_)⟩
  rw [hb] at he
  have ⟨abs, ha, he⟩ := Option.map_eq_some_iff.mp he
  rw [← he, checkedAbsRange_eq ha]

theorem wp_writeAt (offset : Nat) (data : List UInt8) :
    (protocol range).wp thread (writeAt offset data) (fun _ g' => g.Grows g' ∧ g'.phase = .idle) g := by
  apply Protocol.wp.bind
  apply wp_lockIo.mono
  intro _ g₁ ⟨hg₁, device, hd⟩
  apply Protocol.wp.bind
  apply (wp_invalidateRange hd offset data.length).mono
  intro _ g₂ ⟨hg₂, hp⟩
  apply Protocol.wp.bind
  apply (wp_writeRawAt hp).mono
  intro _ g₃ ⟨hg₃, hp⟩
  apply Protocol.wp.bind
  apply (wp_unlockIo hp).mono
  intro _ g₄ ⟨hg₄, hi⟩
  exact ⟨((hg₁.trans hg₂).trans hg₃).trans hg₄, hi⟩

theorem checkedAbsRange_isSome : (range.checkedAbsRange offset len).isSome ↔ offset + len ≤ Usize.max ∧
    (∀ limit, range.len = some limit → offset + len ≤ limit) ∧ range.start + offset ≤ Usize.max := by
  rw [checkedAbsRange, Usize.checkedAdd]
  split
  case isFalse hn => simp [hn]
  case isTrue hm =>
    simp only [Option.bind_eq_bind, Option.bind_some, hm, true_and, Usize.checkedAdd]
    cases range.len <;> grind

-- The blocks that are read ahead are in the range as well.
theorem checkedAbsRange_readAhead (h : (range.checkedAbsRange offset EXT4_BLOCK_SIZE).isSome) :
    (range.checkedAbsRange offset (range.readAheadBlocks offset * EXT4_BLOCK_SIZE)).isSome := by
  have ⟨hm, hl, hs⟩ := checkedAbsRange_isSome.mp h
  rw [checkedAbsRange_isSome, readAheadBlocks]
  cases hlen : range.len
  case none =>
    have hone : min (max 1 1) BLOCK_CACHE_READ_AHEAD_BLOCKS * EXT4_BLOCK_SIZE = EXT4_BLOCK_SIZE := by decide
    exact ⟨by rwa [hone], nofun, hs⟩
  case some limit =>
    have hlimit := hl limit hlen
    have hmax := range.len_le limit hlen
    have hn : min (max ((limit - offset) / EXT4_BLOCK_SIZE) 1) BLOCK_CACHE_READ_AHEAD_BLOCKS * EXT4_BLOCK_SIZE ≤
        limit - offset := by
      have hone : 1 ≤ (limit - offset) / EXT4_BLOCK_SIZE := (Nat.one_le_div_iff (by decide)).mpr (by omega)
      rw [max_eq_left hone]
      exact Nat.le_trans (Nat.mul_le_mul_right _ (Nat.min_le_left ..)) (Nat.div_mul_le_self ..)
    dsimp only
    rw [if_pos (by omega)]
    refine ⟨by omega, fun limit' he => ?_, hs⟩
    cases he
    omega

theorem current_ofChunk {count : Nat} {data : Fin (count * EXT4_BLOCK_SIZE) → UInt8}
    (h : ∀ i, data i = device (range.start + offset + i)) (index : Fin count) :
    BlockBytes.Current range device ⟨offset + index * EXT4_BLOCK_SIZE, EXT4_BLOCK_SIZE, Block.ofChunk data index⟩ := by
  intro i
  dsimp only [Block.ofChunk]
  rw [h]
  congr 1
  dsimp only
  omega

theorem wp_readAhead (hg : g.phase = .holding device) (ha : offset % EXT4_BLOCK_SIZE = 0) :
    (protocol range).wp thread (range.readAhead offset) (fun data g' =>
      g.Grows g' ∧ g'.phase = .holding device ∧ ((range.checkedAbsRange offset EXT4_BLOCK_SIZE).isSome →
        g'.seen ⟨offset, EXT4_BLOCK_SIZE, data⟩)) g := by
  apply Protocol.wp.bind
  apply (wp_readRawAt hg offset _).mono
  intro data g₁ ⟨hg₁, hd, hs, hdata⟩
  cases data
  case none =>
    refine ⟨hg₁, hd, fun hr => ?_⟩
    have ⟨abs, habs⟩ := Option.isSome_iff_exists.mp (checkedAbsRange_readAhead hr)
    rw [habs] at hdata
    cases hdata
  case some data =>
    have ⟨abs, habs, he⟩ := Option.map_eq_some_iff.mp hdata.symm
    have hcurrent (i) : data i = device (range.start + offset + i) := by
      rw [← he, checkedAbsRange_eq habs]
    apply Protocol.wp.bind
    apply (wp_insertAll hd _).mono
    · intro _ g₂ he
      subst he
      have hfirst := current_ofChunk hcurrent ⟨0, range.readAheadBlocks_pos offset⟩
      simp only [Nat.zero_mul, Nat.add_zero] at hfirst
      exact ⟨hg₁, hd, fun _ => hs _ hfirst⟩
    · intro block bytes hm
      have ⟨index, he⟩ := List.mem_ofFn.mp (List.takeWhile_subset _ hm)
      cases he
      refine ⟨?_, current_ofChunk hcurrent index⟩
      rw [Nat.add_mul_mod_self_right]
      exact ha

theorem wp_readCachedBlock (hg : g.phase = .idle) (ha : offset % EXT4_BLOCK_SIZE = 0) :
    (protocol range).wp thread (range.readCachedBlock offset) (fun data g' =>
      g.Grows g' ∧ g'.phase = .idle ∧ ((range.checkedAbsRange offset EXT4_BLOCK_SIZE).isSome →
        g'.seen ⟨offset, EXT4_BLOCK_SIZE, data⟩)) g := by
  apply Protocol.wp.bind
  apply (wp_get offset).mono
  intro data g₁ ⟨hg₁, hp, hs⟩
  cases data
  case some data => exact ⟨hg₁, hp.trans hg, fun _ => hs data rfl⟩
  case none =>
    apply Protocol.wp.bind
    apply wp_lockIo.mono
    intro _ g₂ ⟨hg₂, device, hd⟩
    apply Protocol.wp.bind
    apply (wp_get offset).mono
    intro data g₃ ⟨hg₃, hp, hs⟩
    have hg' := (hg₁.trans hg₂).trans hg₃
    cases data
    case some data =>
      apply Protocol.wp.bind
      apply (wp_unlockIo (by simp [hp, hd])).mono
      intro _ g₄ ⟨hg₄, hi⟩
      exact ⟨hg'.trans hg₄, hi, fun _ => hg₄.seen _ (hs data rfl)⟩
    case none =>
      apply Protocol.wp.bind
      apply (wp_readAhead (hp.trans hd) ha).mono
      intro data g₄ ⟨hg₄, hd, hs⟩
      apply Protocol.wp.bind
      apply (wp_unlockIo (by simp [hd])).mono
      intro _ g₅ ⟨hg₅, hi⟩
      exact ⟨(hg'.trans hg₄).trans hg₅, hi, fun hr => hg₅.seen _ (hs hr)⟩

theorem runLen_spec (block : Nat) (blocks : List (Nat × Option Block)) :
    block :: blocks.map Prod.fst = ((List.range (runLen block blocks + 1)).map fun i => block + i * EXT4_BLOCK_SIZE) ++
      (blocks.drop (runLen block blocks)).map Prod.fst := by
  induction blocks generalizing block
  case nil => simp [runLen]
  case cons head blocks hi =>
    match head with
    | (next, some _) => simp [runLen]
    | (next, none) =>
      rw [runLen]
      split
      case isFalse => simp
      case isTrue hc =>
        have hnext := (Usize.checkedAdd_eq_some.mp hc).left
        rw [List.map_cons, hi next, List.range_succ_eq_map (n := runLen next blocks + 1), List.map_cons, List.map_map]
        subst hnext
        simp only [Nat.zero_mul, Nat.add_zero, List.cons_append, List.drop_succ_cons, List.cons.injEq, true_and]
        congr 2
        funext i
        simp only [Function.comp_apply, Nat.succ_mul]
        omega

-- The blocks at the given offsets.
def AllSeen (seen : BlockBytes → Prop) : List Nat → List Block → Prop :=
  List.Forall₂ fun offset data => seen ⟨offset, EXT4_BLOCK_SIZE, data⟩

theorem AllSeen.mono {seen seen' : BlockBytes → Prop} {offsets : List Nat} {found : List Block}
    (h : AllSeen seen offsets found) (hs : ∀ bytes, seen bytes → seen' bytes) : AllSeen seen' offsets found :=
  h.imp fun _ _ => hs _

theorem allSeen_run {seen : BlockBytes → Prop} {count : Nat} {data : Fin (count * EXT4_BLOCK_SIZE) → UInt8}
    (hs : ∀ bytes : BlockBytes, bytes.Current range device → seen bytes)
    (h : ∀ i, data i = device (range.start + offset + i)) :
    AllSeen seen ((List.range count).map fun i => offset + i * EXT4_BLOCK_SIZE) (List.ofFn (Block.ofChunk data)) := by
  apply List.forall₂_iff_get.mpr
  refine ⟨by simp, fun i hi hi' => ?_⟩
  have hc := current_ofChunk h ⟨i, by simpa using hi⟩
  simpa using hs _ hc

theorem wp_readRuns (hg : g.phase = .holding device) {offsets : List Nat}
    (ha : ∀ offset ∈ offsets, offset % EXT4_BLOCK_SIZE = 0) {blocks : List (Nat × Option Block)}
    (hf : blocks.map Prod.fst = offsets)
    (hs : ∀ block bytes, (block, some bytes) ∈ blocks → g.seen ⟨block, EXT4_BLOCK_SIZE, bytes⟩) :
    (protocol range).wp thread (readRuns blocks) (fun found g' => g.Grows g' ∧ g'.phase = .holding device ∧
      ∀ data, found = some data → AllSeen g'.seen offsets data) g := by
  apply Protocol.wp.loop fun run g' => g.Grows g' ∧ g'.phase = .holding device ∧
    (∀ block bytes, (block, some bytes) ∈ run.2 → g'.seen ⟨block, EXT4_BLOCK_SIZE, bytes⟩) ∧
    ∃ done, offsets = done ++ run.2.map Prod.fst ∧ AllSeen g'.seen done run.1
  case hb => exact ⟨⟨rfl, fun _ => id⟩, hg, hs, [], hf.symm, .nil⟩
  case hf => exact fun _ _ _ => trivial
  case hs =>
    rintro ⟨found, blocks⟩ g₁ ⟨hg₁, hd, hs, done, ho, hall⟩
    rcases blocks with _ | ⟨⟨block, _ | data⟩, blocks⟩
    case nil =>
      refine ⟨hg₁, hd, fun data he => ?_⟩
      cases he
      simpa [ho] using hall
    case cons.some =>
      refine ⟨hg₁, hd, fun block' bytes hm => hs block' bytes (List.mem_cons_of_mem _ hm), done ++ [block], ?_, ?_⟩
      · simp [ho]
      · exact List.rel_append hall (.cons (hs block data List.mem_cons_self) .nil)
    case cons.none =>
      dsimp only
      split
      case isTrue => exact ⟨hg₁, hd, by simp⟩
      case isFalse =>
        apply Protocol.wp.bind
        apply (wp_readRawAt hd block _).mono
        rintro data g₂ ⟨hg₂, hd, hsee, hdata⟩
        cases data
        case none => exact ⟨hg₁.trans hg₂, hd, by simp⟩
        case some data =>
          obtain ⟨abs, habs, he⟩ := Option.map_eq_some_iff.mp hdata.symm
          have hbytes (i) : data i = device (range.start + block + i) := by
            rw [← he, checkedAbsRange_eq habs]
          have hrun := runLen_spec block blocks
          apply Protocol.wp.bind
          apply (wp_insertAll hd _).mono
          · intro _ g₃ he
            subst he
            refine ⟨hg₁.trans hg₂, hd, fun block' bytes hm => ?_, ?_⟩
            · exact hg₂.seen _ (hs block' bytes (List.mem_cons_of_mem _ (List.mem_of_mem_drop hm)))
            · refine ⟨_, ?_, List.rel_append (hall.mono hg₂.seen) (allSeen_run hsee hbytes)⟩
              rw [ho, List.map_cons, hrun, List.append_assoc]
              rfl
          · intro block' bytes hm
            have hoffset : block' ∈ offsets := ho ▸ List.mem_append_right _ (List.of_mem_zip hm).left
            have hcurrent := allSeen_run (fun _ hc => hc) hbytes
            have hlen := hcurrent.length_eq
            rw [hrun, ← List.append_nil (List.ofFn _), List.zip_append hlen, List.zip_nil_right, List.append_nil] at hm
            exact ⟨ha block' hoffset, List.forall₂_zip hcurrent hm⟩

-- Blocks that all have been found.
theorem allSeen_found {seen : BlockBytes → Prop} {blocks : List (Nat × Option Block)}
    (hs : ∀ block bytes, (block, some bytes) ∈ blocks → seen ⟨block, EXT4_BLOCK_SIZE, bytes⟩)
    (h : blocks.all fun (_, data) => data.isSome) :
    AllSeen seen (blocks.map Prod.fst) (blocks.map Prod.snd).reduceOption := by
  induction blocks
  case nil => exact .nil
  case cons head blocks hi =>
    match head with
    | (block, none) => simp at h
    | (block, some data) =>
      simp only [List.all_cons, Option.isSome_some, Bool.true_and] at h
      simp only [List.map_cons, List.reduceOption_cons_of_some]
      exact .cons (hs block data List.mem_cons_self)
        (hi (fun block bytes hm => hs block bytes (List.mem_cons_of_mem _ hm)) h)

theorem wp_readCachedBlocks (hg : g.phase = .idle) {offsets : List Nat}
    (ha : ∀ offset ∈ offsets, offset % EXT4_BLOCK_SIZE = 0) :
    (protocol range).wp thread (readCachedBlocks offsets) (fun found g' => g.Grows g' ∧ g'.phase = .idle ∧
      ∀ data, found = some data → AllSeen g'.seen offsets data) g := by
  have hnone (block : Nat) (bytes : Block) (hm : (block, some bytes) ∈ offsets.map (·, none)) :
      g.seen ⟨block, EXT4_BLOCK_SIZE, bytes⟩ := by
    simp at hm
  apply Protocol.wp.bind
  apply (wp_getMissing _ hnone).mono
  rintro blocks g₁ ⟨hg₁, hp, hf, hs⟩
  have hoffsets : blocks.map Prod.fst = offsets := by simpa [Function.comp_def] using hf
  dsimp only
  split
  case isTrue hall =>
    refine ⟨hg₁, hp.trans hg, fun data he => ?_⟩
    cases he
    rw [← hoffsets]
    exact allSeen_found hs hall
  case isFalse =>
    apply Protocol.wp.bind
    apply wp_lockIo.mono
    rintro _ g₂ ⟨hg₂, device, hd⟩
    apply Protocol.wp.bind
    apply (wp_getMissing blocks fun block bytes hm => hg₂.seen _ (hs block bytes hm)).mono
    rintro blocks' g₃ ⟨hg₃, hp, hf, hs⟩
    apply Protocol.wp.bind
    apply (wp_readRuns (hp.trans hd) ha (hf.trans hoffsets) hs).mono
    rintro found g₄ ⟨hg₄, hd, hfound⟩
    apply Protocol.wp.bind
    apply (wp_unlockIo (by simp [hd])).mono
    rintro _ g₅ ⟨hg₅, hi⟩
    exact ⟨(((hg₁.trans hg₂).trans hg₃).trans hg₄).trans hg₅, hi, fun data he => (hfound data he).mono hg₅.seen⟩

theorem copyFrom_of_lt {out data : Block} {copied count start : Nat} {i : Fin EXT4_BLOCK_SIZE} (h : i < copied) :
    out.copyFrom copied count data start i = out i :=
  if_neg fun hc => Nat.not_le.mpr h hc.left

theorem copyFrom_of_le {out data : Block} {copied count start : Nat} {i : Fin EXT4_BLOCK_SIZE} (hc : copied ≤ i)
    (hi : i < copied + count) (h : start + (i - copied) < EXT4_BLOCK_SIZE) :
    out.copyFrom copied count data start i = data ⟨_, h⟩ := by
  rw [Block.copyFrom, if_pos ⟨hc, hi⟩, dif_pos h]

theorem PartSeen.mono {seen seen' : BlockBytes → Prop} {read : BlockBytes} {block : Nat}
    (h : PartSeen range seen read block) (hs : ∀ bytes, seen bytes → seen' bytes) : PartSeen range seen' read block :=
  fun hr => have ⟨data, hd, hb⟩ := h hr; ⟨data, hs _ hd, hb⟩

-- A read at an offset that is not that of a block meets two blocks.
theorem blockwise_of_parts {seen : BlockBytes → Prop} {out : Block} {first : Nat}
    (hf : first % EXT4_BLOCK_SIZE = 0) (hle : first ≤ offset) (hlt : offset < first + EXT4_BLOCK_SIZE)
    (h : PartSeen range seen ⟨offset, EXT4_BLOCK_SIZE, out⟩ first)
    (h' : PartSeen range seen ⟨offset, EXT4_BLOCK_SIZE, out⟩ (first + EXT4_BLOCK_SIZE)) :
    Blockwise range seen ⟨offset, EXT4_BLOCK_SIZE, out⟩ := by
  intro block i ha hb hi
  have hi' : (i : Nat) < EXT4_BLOCK_SIZE := i.isLt
  have hblock : block = first ∨ block = first + EXT4_BLOCK_SIZE := by
    simp only [EXT4_BLOCK_SIZE] at *
    omega
  obtain he | he := hblock
  · exact he ▸ h
  · exact he ▸ h'

theorem wp_readOffset (hg : g.phase = .idle) (ho : offset ≤ Usize.max) :
    (protocol range).wp thread (range.readOffset offset) (fun out g' => g.Grows g' ∧ g'.phase = .idle ∧
      Sound range g'.seen .readOffset ⟨offset, EXT4_BLOCK_SIZE, out⟩) g := by
  rw [readOffset]
  split
  case isTrue ha =>
    apply (wp_readCachedBlock hg ha).mono
    rintro out g' ⟨hg', hi, hs⟩
    refine ⟨hg', hi, ?_⟩
    by_cases hr : (range.checkedAbsRange offset EXT4_BLOCK_SIZE).isSome
    case pos => exact .inl (hs hr)
    case neg =>
      refine .inr ⟨rfl, fun _ => hr, fun block i hb hle hlt hin => ?_⟩
      have hi' : (i : Nat) < EXT4_BLOCK_SIZE := i.isLt
      have he : block = offset := by
        simp only [EXT4_BLOCK_SIZE] at *
        omega
      exact absurd (he ▸ hin) hr
  case isFalse hn =>
    have hfirst : offset / EXT4_BLOCK_SIZE * EXT4_BLOCK_SIZE % EXT4_BLOCK_SIZE = 0 := Nat.mul_mod_left ..
    have hr : offset / EXT4_BLOCK_SIZE * EXT4_BLOCK_SIZE + offset % EXT4_BLOCK_SIZE = offset := Nat.div_add_mod' ..
    have hlt : offset % EXT4_BLOCK_SIZE < EXT4_BLOCK_SIZE := Nat.mod_lt _ (by decide)
    generalize offset / EXT4_BLOCK_SIZE * EXT4_BLOCK_SIZE = first at *
    generalize hmod : offset % EXT4_BLOCK_SIZE = r at *
    have hsound {out : Block} {seen : BlockBytes → Prop}
        (h : PartSeen range seen ⟨offset, EXT4_BLOCK_SIZE, out⟩ first)
        (h' : PartSeen range seen ⟨offset, EXT4_BLOCK_SIZE, out⟩ (first + EXT4_BLOCK_SIZE)) :
        Sound range seen .readOffset ⟨offset, EXT4_BLOCK_SIZE, out⟩ :=
      .inr ⟨rfl, fun h0 => absurd (hmod.symm.trans h0) hn, blockwise_of_parts hfirst (by omega) (by omega) h h'⟩
    apply Protocol.wp.loop fun (state : Nat × Nat × Block) g' => g.Grows g' ∧ g'.phase = .idle ∧
      ((state.1 = 0 ∧ state.2.1 = first) ∨
        (state.1 = EXT4_BLOCK_SIZE - r ∧ state.2.1 = first + EXT4_BLOCK_SIZE ∧ first + EXT4_BLOCK_SIZE ≤ Usize.max ∧
          PartSeen range g'.seen ⟨offset, EXT4_BLOCK_SIZE, state.2.2⟩ first) ∨
        (state.1 = EXT4_BLOCK_SIZE ∧ Sound range g'.seen .readOffset ⟨offset, EXT4_BLOCK_SIZE, state.2.2⟩))
    case hb => exact ⟨⟨rfl, fun _ => id⟩, hg, .inl ⟨rfl, rfl⟩⟩
    case hf => exact fun _ _ _ => trivial
    case hs =>
      rintro ⟨copied, block, out⟩ g₁ ⟨hg₁, hi, hinv⟩
      dsimp only at hinv ⊢
      obtain ⟨hcopied, hblock⟩ | ⟨hcopied, hblock, hm, hpart⟩ | ⟨hcopied, hs⟩ := hinv
      · subst hcopied hblock
        rw [if_neg (by decide)]
        apply Protocol.wp.bind
        apply (wp_readCachedBlock hi hfirst).mono
        rintro data g₂ ⟨hg₂, hi, hdata⟩
        have hoffset : Usize.saturatingAdd offset 0 - block = r := by
          rw [Usize.saturatingAdd_zero ho]
          omega
        have hcount : min (EXT4_BLOCK_SIZE - r) (EXT4_BLOCK_SIZE - 0) = EXT4_BLOCK_SIZE - r := by omega
        have hpart : PartSeen range g₂.seen ⟨offset, EXT4_BLOCK_SIZE, out.copyFrom 0 (EXT4_BLOCK_SIZE - r) data r⟩ block :=
          fun hin => ⟨data, hdata hin, fun i hle h => by
            dsimp only at hle h ⊢
            rw [copyFrom_of_le (Nat.zero_le _) (by omega) (by omega)]
            exact congrArg data (Fin.ext (by dsimp only; omega))⟩
        rw [hoffset, hcount, if_neg (by omega)]
        split
        case isTrue hend =>
          refine ⟨hg₁.trans hg₂, hi, hsound hpart fun hin => ?_⟩
          have hmax := (checkedAbsRange_isSome.mp hin).left
          have hle : Usize.saturatingAdd block EXT4_BLOCK_SIZE = block + EXT4_BLOCK_SIZE :=
            Usize.saturatingAdd_eq (by omega)
          have hge := hend.left
          rw [hle] at hge
          obtain hsat | hsat := Nat.le_total (offset + EXT4_BLOCK_SIZE) Usize.max
          · rw [Usize.saturatingAdd_eq hsat] at hge
            omega
          · rw [Usize.saturatingAdd, Nat.min_eq_right hsat] at hge
            omega
        case isFalse hend =>
          have hlt' : Usize.saturatingAdd block EXT4_BLOCK_SIZE < Usize.saturatingAdd offset EXT4_BLOCK_SIZE :=
            Nat.not_le.mp fun hge => hend ⟨hge, by omega⟩
          have hmax : Usize.saturatingAdd block EXT4_BLOCK_SIZE < Usize.max :=
            Nat.lt_of_lt_of_le hlt' (Nat.min_le_right ..)
          have hle : block + EXT4_BLOCK_SIZE ≤ Usize.max := by
            by_contra hn
            rw [Usize.saturatingAdd, Nat.min_eq_right (by omega)] at hmax
            omega
          exact ⟨hg₁.trans hg₂, hi, .inr (.inl ⟨Nat.zero_add _, Usize.saturatingAdd_eq hle, hle, hpart⟩)⟩
      · rw [if_neg (by omega)]
        apply Protocol.wp.bind
        apply (wp_readCachedBlock hi (by rw [hblock, Nat.add_mod_right, hfirst])).mono
        rintro data g₂ ⟨hg₂, hi, hdata⟩
        have hoffset : Usize.saturatingAdd offset copied - block = 0 := by
          rw [Usize.saturatingAdd_eq (by omega)]
          omega
        have hcount : min (EXT4_BLOCK_SIZE - 0) (EXT4_BLOCK_SIZE - copied) = r := by omega
        rw [hoffset, hcount, if_neg hn, if_neg (by omega)]
        refine ⟨hg₁.trans hg₂, hi, .inr (.inr ⟨by omega, hsound ?_ ?_⟩)⟩
        · intro hin
          obtain ⟨data', hd, hb⟩ := PartSeen.mono hpart hg₂.seen hin
          refine ⟨data', hd, fun i hle h => ?_⟩
          dsimp only at hle h ⊢
          rw [copyFrom_of_lt (by omega)]
          exact hb i hle h
        · intro hin
          refine ⟨data, hblock ▸ hdata (hblock ▸ hin), fun i hle h => ?_⟩
          have hi' : (i : Nat) < EXT4_BLOCK_SIZE := i.isLt
          dsimp only at hle h ⊢
          rw [copyFrom_of_le (by omega) (by omega) (by omega)]
          exact congrArg data (Fin.ext (by dsimp only; omega))
      · rw [if_pos (by omega)]
        exact ⟨hg₁, hi, hs⟩

end BlockRange

namespace BlockCall

open BlockState

variable {τ : Type} [DecidableEq τ] {range : BlockRange} {thread : τ} {g : BlockProgress}

theorem wp_reads (call : BlockCall) (hg : g.phase = .idle) : (protocol range).wp thread (call.reads range)
    (fun reads g' => g.Grows g' ∧ g'.phase = .idle ∧ ∀ read ∈ reads, Sound range g'.seen call.kind read) g := by
  cases call
  case readAt offset len =>
    apply Protocol.wp.bind
    apply (BlockRange.wp_readAt offset len).mono
    intro buf g' ⟨hg', hi, hs⟩
    refine ⟨hg', hi, fun read hm => .inl ?_⟩
    have ⟨bytes, hb, he⟩ := List.mem_map.mp hm
    exact he ▸ hs bytes (Option.mem_toList.mp hb)
  case writeAt offset data =>
    apply Protocol.wp.bind
    apply (BlockRange.wp_writeAt offset data).mono
    intro _ g' ⟨hg', hi⟩
    exact ⟨hg', hi, nofun⟩
  case readOffset offset ho =>
    apply Protocol.wp.bind
    apply (BlockRange.wp_readOffset hg ho).mono
    intro out g' ⟨hg', hi, hs⟩
    refine ⟨hg', hi, fun read hm => ?_⟩
    rw [List.mem_singleton.mp hm]
    exact hs
  case readCachedBlocks offsets ha =>
    apply Protocol.wp.bind
    apply (BlockRange.wp_readCachedBlocks hg ha).mono
    intro found g' ⟨hg', hi, hs⟩
    refine ⟨hg', hi, fun read hm => .inl ?_⟩
    have ⟨(offset, data), hz, he⟩ := List.mem_map.mp hm
    cases found
    case none => simp at hz
    case some found => exact he ▸ List.forall₂_zip (hs found rfl) hz

theorem wp_run (call : BlockCall) (hg : g.Idle) :
    (protocol range).wp thread (call.run range) (fun _ => BlockProgress.Idle) g := by
  apply Protocol.wp.bind
  apply wp_call.mono
  intro calledAt g₁ ⟨hc, hp⟩
  apply Protocol.wp.bind
  apply (wp_reads call (hp.trans hg)).mono
  intro reads g₂ ⟨hg₂, hi, hs⟩
  rw [← hc, ← hg₂.calledAt]
  apply (wp_finish hs).mono
  intro _ g₃ he
  rw [he]
  exact hi

end BlockCall

namespace BlockState

variable {τ : Type} {range : BlockRange}

theorem Inv.opened (device : Nat → UInt8) :
    Inv range (.opened device : BlockState τ) fun _ => .new where
  threads t := ⟨by simp [BlockState.opened, BlockProgress.new], nofun, Nat.le_refl _, nofun⟩
  cache := .new
  reads := ⟨nofun, nofun, nofun⟩

-- Whatever calls run side by side, reads return what the device held meanwhile, and the cache keeps what it holds.
theorem reads_sound [DecidableEq τ] (range : BlockRange) (device : Nat → UInt8) (prog : τ → Prog BlockInstr Unit)
    (hp : ∀ t, (prog t).Calls (IsBlockCall range)) (config : Config BlockInstr (BlockState τ) τ)
    (hr : Config.Reachable (BlockInstr.machine range) (fun _ _ _ => True) ⟨.opened device, prog⟩ config) :
    config.state.ReadsSound range ∧ config.state.CacheSound range := by
  have hidle : BlockProgress.new.Idle := rfl
  have hcalls (t : τ) : (protocol range).wp t (prog t) (fun _ => BlockProgress.Idle) .new := by
    apply Protocol.wp.calls (hp t) hidle
    intro _ _ g hcall hg
    cases hcall with
    | call call => exact BlockCall.wp_run call hg
  have hsound : Protocol.Sound (protocol range) (fun _ => BlockProgress.Idle) ⟨.opened device, prog⟩
      fun _ => .new := ⟨.opened device, hcalls⟩
  have ⟨values, h⟩ := Protocol.sound hsound (fun _ _ _ _ _ => trivial) hr
  exact ⟨h.inv.reads, h.inv.cache.linked, h.inv.cache.size, fun block data hl => (h.inv.cache.known block data hl).current⟩

-- A processor reads behind the first byte of a block while another one writes to both blocks that it meets.
def tornProgs : Bool → Prog BlockInstr Unit
  | false => (BlockCall.readOffset 1 (by simp [Usize.max])).run ⟨0, none, nofun⟩ >>= pure
  | true  => (BlockCall.writeAt 4095 [1, 1]).run ⟨0, none, nofun⟩ >>= pure

-- The device never held different bytes at the border of the blocks, but they are different in what is returned.
def isTorn (state : BlockState Bool) : Bool :=
  state.moments.all (fun device => device 4095 == device 4096) && state.returned.any fun read =>
    (BlockRange.checkedAbsRange ⟨0, none, nofun⟩ read.offset read.len).isSome && read.offset == 1 &&
      (List.ofFn read.bytes)[4094]? == some 0 && (List.ofFn read.bytes)[4095]? == some 1

theorem not_atOneMoment {state : BlockState Bool} (h : state.isTorn) : ∃ read ∈ state.returned,
    (BlockRange.checkedAbsRange ⟨0, none, nofun⟩ read.offset read.len).isSome ∧
      ¬state.AtOneMoment ⟨0, none, nofun⟩ read := by
  simp only [isTorn, Bool.and_eq_true, List.all_eq_true, List.any_eq_true, beq_iff_eq] at h
  have ⟨hsame, read, hm, ⟨⟨hr, ho⟩, h₀⟩, h₁⟩ := h
  refine ⟨read, hm, hr, fun ⟨t, device, _, _, hd, hc⟩ => ?_⟩
  have ⟨hi₀, he₀⟩ := List.getElem?_eq_some_iff.mp h₀
  have ⟨hi₁, he₁⟩ := List.getElem?_eq_some_iff.mp h₁
  rw [List.getElem_ofFn, hc, ho] at he₀ he₁
  simp only [Nat.zero_add, Nat.reduceAdd] at he₀ he₁
  rw [hsame device (List.mem_of_getElem? hd), he₁] at he₀
  cases he₀

theorem tornProgs_calls (t : Bool) : (tornProgs t).Calls (IsBlockCall ⟨0, none, nofun⟩) := by
  cases t
  case false => exact .call (.call _) fun _ => .done
  case true => exact .call (.call _) fun _ => .done

theorem tornProgs_run : ∃ config, Config.Reachable (BlockInstr.machine ⟨0, none, nofun⟩) (fun _ _ _ => True)
    ⟨.opened fun _ => 0, tornProgs⟩ config ∧ config.state.isTorn := by
  have hrun : ((Config.run (BlockInstr.machine ⟨0, none, nofun⟩) ⟨.opened fun _ => 0, tornProgs⟩
      (List.replicate 8 false ++ List.replicate 6 true ++ List.replicate 9 false)).any fun config =>
        config.state.isTorn) = true := by decide +kernel
  have ⟨config, hc, ht⟩ := (Option.any_eq_true _ _).mp hrun
  exact ⟨config, .of_run hc, ht⟩

-- What is read has never been on the device.
theorem not_reads_sound : ∃ (range : BlockRange) (device : Nat → UInt8) (prog : Bool → Prog BlockInstr Unit),
    (∀ t, (prog t).Calls (IsBlockCall range)) ∧ ∃ config,
      Config.Reachable (BlockInstr.machine range) (fun _ _ _ => True) ⟨.opened device, prog⟩ config ∧
      ∃ read ∈ config.state.returned, (range.checkedAbsRange read.offset read.len).isSome ∧
        ¬config.state.AtOneMoment range read := by
  have ⟨config, hc, ht⟩ := tornProgs_run
  exact ⟨_, _, tornProgs, tornProgs_calls, config, hc, not_atOneMoment ht⟩

theorem reads_sound_torn : ∃ config : Config BlockInstr (BlockState Bool) Bool, config.state.isTorn ∧
    config.state.ReadsSound ⟨0, none, nofun⟩ ∧ config.state.CacheSound ⟨0, none, nofun⟩ := by
  have ⟨config, hc, ht⟩ := tornProgs_run
  exact ⟨config, ht, reads_sound _ _ tornProgs tornProgs_calls config hc⟩

end BlockState

end WllOs.Fs
