import WllOs.Fs.Pselect
import WllOs.Library.Fallible

namespace WllOs.Fs

theorem word_and_bit {value : BitVec 64} {i : Nat} (hi : i < 64) :
    value &&& (1#64 <<< i) ≠ 0 ↔ value.getLsbD i := by
  rw [← BitVec.twoPow_eq, BitVec.and_twoPow]
  have hn : BitVec.twoPow 64 i ≠ 0#64 := fun h => by
    have := congrArg (·.getLsbD i) h
    simp [hi] at this
  split
  case isTrue h => exact iff_of_true hn h
  case isFalse h => simp [h]

variable {set words : List (BitVec 64)} {fd fd' nfds i : Nat}

theorem fdsetContains_eq : fdsetContains set fd = set[fd / 64]?.any (·.getLsbD (fd % 64)) := by
  simp only [fdsetContains]
  cases set[fd / 64]?
  case none => rfl
  case some value =>
    rw [Option.any_some, Bool.eq_iff_iff, decide_eq_true_iff]
    exact word_and_bit (Nat.mod_lt _ (by decide))

theorem fdsetContains_of_ge (h : set.length ≤ fd / 64) : fdsetContains set fd = false := by
  simp [fdsetContains_eq, h]

theorem fdsetContains_replicate {n : Nat} : fdsetContains (List.replicate n 0) fd = false := by
  rw [fdsetContains_eq, List.getElem?_replicate]
  split <;> simp

@[simp]
theorem length_fdsetInsert : (fdsetInsert set fd).length = set.length := by
  simp [fdsetInsert]

theorem fdsetContains_insert (h : fd / 64 < set.length) :
    fdsetContains (fdsetInsert set fd) fd' = (decide (fd' = fd) || fdsetContains set fd') := by
  rw [fdsetContains_eq, fdsetContains_eq, fdsetInsert, List.getElem?_modify]
  by_cases hw : fd / 64 = fd' / 64
  case neg =>
    have hn : fd' ≠ fd := fun he => hw (by rw [he])
    simp [hw, hn]
  case pos =>
    have hv : ∃ value, set[fd' / 64]? = some value := ⟨_, List.getElem?_eq_getElem (hw ▸ h)⟩
    have ⟨value, hv⟩ := hv
    have hm : fd' % 64 < 64 := Nat.mod_lt _ (by decide)
    have hb : fd % 64 = fd' % 64 ↔ fd' = fd := by omega
    simp only [hv, hw, if_true, Option.map_eq_map, Option.map_some, Option.any_some, BitVec.getLsbD_or]
    rw [← BitVec.twoPow_eq, BitVec.getLsbD_twoPow, Bool.or_comm]
    simp [Nat.mod_lt, hb]

theorem div_lt_fdsetWords (h : fd < nfds) : fd / 64 < fdsetWords nfds := by
  simp only [fdsetWords]
  omega

-- A set is loaded with the bits that it has.
theorem loadFdset_ok {user : Option UserFdSet} (h : loadFdset user nfds = .ok words) :
    words.length = fdsetWords nfds ∧ ∀ fd < nfds,
      fdsetContains words fd = user.any fun set => (set.words (fd / 64)).getLsbD (fd % 64) := by
  cases user
  case none =>
    cases h
    exact ⟨List.length_replicate, fun fd _ => fdsetContains_replicate⟩
  case some set =>
    have hw := Fallible.mapM_guarded_ok h
    subst hw
    refine ⟨by simp, fun fd hf => ?_⟩
    simp [fdsetContains_eq, div_lt_fdsetWords hf]

-- What a set is about, of being ready for reading and for writing. Nothing is ready for the third.
def SelectSet.choose (read write : Bool) : SelectSet → Bool
  | .read   => read
  | .write  => write
  | .except => false

theorem revents_iff {which : SelectSet} {read write error hup : Bool} :
    ((if which.events &&& POLL_READ_EVENTS ≠ 0 && read then which.events &&& POLL_READ_EVENTS else 0) |||
      (if which.events &&& POLL_WRITE_EVENTS ≠ 0 && write then which.events &&& POLL_WRITE_EVENTS else 0) |||
      (if error then POLLERR else 0) ||| if hup then POLLHUP else 0) &&& which.events ≠ 0 ↔
        which.choose read write := by
  cases which <;> revert read write error hup <;> decide

namespace PollState

variable {δ : Type} {state : PollState δ} {readIn writeIn exceptIn : List (BitVec 64)} {result : PselectPollResult}

def ready (state : PollState δ) (which : SelectSet) (fd : Nat) : Bool :=
  (state.fdTable.get fd).any fun file =>
    which.choose (file.pollReadReady state.objects) (file.pollWriteReady state.objects)

theorem reports_iff {which : SelectSet} : state.Reports which fd ↔ state.ready which fd := by
  have hone : state.Reports which fd ↔ (state.pollFd ⟨fd, which.events, 0⟩).revents &&& which.events ≠ 0 := by
    refine ⟨fun ⟨_, _, hp, hr⟩ => ?_, fun hr => ⟨_, _, rfl, hr⟩⟩
    cases hp
    exact hr
  have hfd : ¬(fd : Int) < 0 := by omega
  simp only [hone, pollFd, hfd, if_false, Int.toNat_natCast, ready]
  cases state.fdTable.get fd
  case none => cases which <;> simp [SelectSet.events, POLLNVAL, POLLIN, POLLOUT, POLLPRI]
  case some file => exact revents_iff

-- The part of the loop before the `k`th descriptor has been done.
structure Polled (state : PollState δ) (readIn writeIn exceptIn : List (BitVec 64)) (k : Nat)
    (result : PselectPollResult) : Prop where
  readLength : result.readOut.length = readIn.length
  writeLength : result.writeOut.length = writeIn.length
  read : ∀ fd, fdsetContains result.readOut fd =
    (decide (fd < k) && (fdsetContains readIn fd && state.ready .read fd))
  write : ∀ fd, fdsetContains result.writeOut fd =
    (decide (fd < k) && (fdsetContains writeIn fd && state.ready .write fd))
  except : result.exceptOut = List.replicate exceptIn.length 0
  ready : result.ready = (List.range k).countP fun fd =>
    fdsetContains readIn fd && state.ready .read fd || fdsetContains writeIn fd && state.ready .write fd

theorem lt_length_of_contains (h : fdsetContains set fd) : fd / 64 < set.length := by
  by_contra hn
  simp [fdsetContains_of_ge (Nat.le_of_not_lt hn)] at h

-- One descriptor in one set.
theorem contains_insert_if {want ready : Bool} {out : List (BitVec 64)} {k : Nat} (hl : out.length = set.length)
    (hw : want = fdsetContains set k) : fdsetContains (if want && ready then fdsetInsert out k else out) fd =
      (decide (fd = k) && (fdsetContains set fd && ready) || fdsetContains out fd) := by
  split
  case isTrue h =>
    have ⟨hwant, hr⟩ : want ∧ ready := by simpa using h
    have hc : fdsetContains set k := hw ▸ hwant
    rw [fdsetContains_insert (hl ▸ lt_length_of_contains hc), hr, Bool.and_true]
    by_cases he : fd = k
    case pos => simp [he, hc]
    case neg => simp [he]
  case isFalse h =>
    by_cases he : fd = k
    case neg => simp [he]
    case pos =>
      have h : (fdsetContains set k && ready) = false := by simpa [hw] using h
      simp [he, h]

theorem Polled.step {k : Nat} {result' : PselectPollResult} (hp : state.Polled readIn writeIn exceptIn k result)
    (h : state.pselectFd readIn writeIn exceptIn result k = .ok result') :
    state.Polled readIn writeIn exceptIn (k + 1) result' := by
  have hlt (fd : Nat) : decide (fd < k + 1) = (decide (fd = k) || decide (fd < k)) := by
    rw [Bool.eq_iff_iff]
    simp only [Bool.or_eq_true, decide_eq_true_eq]
    omega
  simp only [pselectFd] at h
  split at h
  case isTrue hn =>
    cases h
    have ⟨⟨hr, hw⟩, _⟩ : (fdsetContains readIn k = false ∧ fdsetContains writeIn k = false) ∧
        fdsetContains exceptIn k = false := by simpa using hn
    refine ⟨hp.readLength, hp.writeLength, fun fd => ?_, fun fd => ?_, hp.except, ?_⟩
    case refine_1 =>
      rw [hp.read, hlt]
      by_cases he : fd = k <;> simp [he, hr]
    case refine_2 =>
      rw [hp.write, hlt]
      by_cases he : fd = k <;> simp [he, hw]
    case refine_3 =>
      rw [hp.ready, List.range_succ, List.countP_append]
      simp [hr, hw]
  case isFalse =>
    split at h
    case h_1 => cases h
    case h_2 file hf =>
      cases h
      have hready : state.ready .read k = file.pollReadReady state.objects ∧
          state.ready .write k = file.pollWriteReady state.objects := by simp [PollState.ready, hf, SelectSet.choose]
      refine ⟨?_, ?_, fun fd => ?_, fun fd => ?_, hp.except, ?_⟩
      case refine_1 => dsimp only; split <;> simp [hp.readLength]
      case refine_2 => dsimp only; split <;> simp [hp.writeLength]
      case refine_3 =>
        rw [contains_insert_if hp.readLength rfl, hp.read, hlt]
        by_cases he : fd = k <;> simp [he, hready]
      case refine_4 =>
        rw [contains_insert_if hp.writeLength rfl, hp.write, hlt]
        by_cases he : fd = k <;> simp [he, hready]
      case refine_5 =>
        rw [List.range_succ, List.countP_append, ← hp.ready]
        simp only [List.countP_singleton, hready]
        split <;> rfl

theorem pselectPoll_ok (h : state.pselectPoll nfds readIn writeIn exceptIn = .ok result) :
    state.Polled readIn writeIn exceptIn nfds result := by
  have hrun {k : Nat} {result : PselectPollResult} (h : (List.range k).foldlM
      (state.pselectFd readIn writeIn exceptIn) ⟨0, List.replicate readIn.length 0, List.replicate writeIn.length 0,
        List.replicate exceptIn.length 0⟩ = .ok result) : state.Polled readIn writeIn exceptIn k result := by
    induction k generalizing result
    case zero =>
      cases h
      exact ⟨by simp, by simp, fun _ => by simpa using fdsetContains_replicate,
        fun _ => by simpa using fdsetContains_replicate, rfl, rfl⟩
    case succ k hi =>
      rw [List.range_succ, List.foldlM_append] at h
      have ⟨before, hb, h⟩ := Fallible.bind_ok h
      rw [List.foldlM_cons] at h
      have ⟨after, ha, h⟩ := Fallible.bind_ok h
      cases h
      exact (hi hb).step ha
  exact hrun h

end PollState

-- A bit of a set in the memory of a task.
def UserFdSet.has (user : Option UserFdSet) (fd : Nat) : Bool :=
  user.any fun set => (set.words (fd / 64)).getLsbD (fd % 64)

theorem storeWords_ok {user user' : UserFdSet} {j : Nat} (h : storeWords user i words = (.ok (), user')) :
    user'.words j = if i ≤ j then words[j - i]?.getD (user.words j) else user.words j := by
  induction words generalizing i user
  case nil =>
    cases h
    simp
  case cons word words hi =>
    simp only [storeWords] at h
    split at h
    case isFalse => cases h
    case isTrue =>
      rw [hi h]
      by_cases he : j = i
      case pos => simp [he]
      case neg =>
        have hn : i + 1 ≤ j ↔ i ≤ j := by omega
        simp only [hn, Function.update_of_ne he]
        split
        case isFalse => rfl
        case isTrue hle =>
          have hj : j - i = j - (i + 1) + 1 := by omega
          rw [hj, List.getElem?_cons_succ]

theorem storeWords_error {user user' : UserFdSet} {err : SysErrNo}
    (h : storeWords user i words = (.error err, user')) : err = .EFAULT := by
  induction words generalizing i user
  case nil => cases h
  case cons word words hi =>
    simp only [storeWords] at h
    split at h
    case isTrue => exact hi h
    case isFalse => cases h; rfl

theorem storeFdset_ok {user user' : Option UserFdSet} (h : storeFdset user words = (.ok (), user')) :
    UserFdSet.has user' fd =
      if fd / 64 < words.length then user.isSome && fdsetContains words fd else UserFdSet.has user fd := by
  cases user
  case none =>
    cases h
    simp [UserFdSet.has]
  case some user =>
    simp only [storeFdset, Prod.mk.injEq] at h
    have ⟨hr, hu⟩ := h
    have hw := storeWords_ok (j := fd / 64) (Prod.ext hr rfl)
    simp only [← hu, UserFdSet.has, Option.any_some, hw, Nat.zero_le, if_true, Nat.sub_zero, Option.isSome_some,
      Bool.true_and, fdsetContains_eq]
    split
    case isTrue hl => simp [List.getElem?_eq_getElem hl]
    case isFalse hl => simp [List.getElem?_eq_none (Nat.le_of_not_lt hl)]

theorem storeFdset_error {user user' : Option UserFdSet} {err : SysErrNo}
    (h : storeFdset user words = (.error err, user')) : err = .EFAULT := by
  cases user
  case none => cases h
  case some user =>
    simp only [storeFdset, Prod.mk.injEq] at h
    exact storeWords_error (Prod.ext h.left rfl)

namespace UserFdSets

variable {sets sets' : UserFdSets} {result : PselectPollResult}

theorem store_ok (h : sets.store result = (.ok (), sets')) :
    storeFdset sets.readfds result.readOut = (.ok (), sets'.readfds) ∧
      storeFdset sets.writefds result.writeOut = (.ok (), sets'.writefds) ∧
      storeFdset sets.exceptfds result.exceptOut = (.ok (), sets'.exceptfds) := by
  simp only [store] at h
  split at h
  case h_1 => cases h
  case h_2 readfds hr =>
    split at h
    case h_1 => cases h
    case h_2 writefds hw =>
      simp only [Prod.mk.injEq] at h
      have ⟨he, hs⟩ := h
      subst hs
      exact ⟨hr, hw, Prod.ext he rfl⟩

theorem store_error {err : SysErrNo} (h : sets.store result = (.error err, sets')) : err = .EFAULT := by
  simp only [store] at h
  split at h
  case h_1 hr => cases h; exact storeFdset_error hr
  case h_2 =>
    split at h
    case h_1 hw => cases h; exact storeFdset_error hw
    case h_2 =>
      simp only [Prod.mk.injEq] at h
      exact storeFdset_error (Prod.ext h.left rfl)

end UserFdSets

section

variable {δ : Type} {sets : UserFdSets} {readIn writeIn exceptIn : List (BitVec 64)} {selected : Pselected δ}
  {rounds : List (PollRound δ)} {deadline : Option Nat}

-- How the loop ends: with an error that leaves the sets alone, or with a poll whose result it stores.
inductive Ended (nfds : Nat) (sets : UserFdSets) (readIn writeIn exceptIn : List (BitVec 64)) (deadline : Option Nat)
    (selected : Pselected δ) : Prop
  | failed {err : SysErrNo} (hr : selected.result = .error err) (hs : selected.sets = sets)
  | finished {round : PollRound δ} {result : PselectPollResult}
      (hp : round.state.pselectPoll nfds readIn writeIn exceptIn = .ok result)
      (hn : deadline = none → result.ready ≠ 0) (he : selected = round.finish sets result)

theorem pselectTimedOut_ended (h : pselectTimedOut nfds sets readIn writeIn exceptIn rounds = some selected)
    (hd : deadline ≠ none) : Ended nfds sets readIn writeIn exceptIn deadline selected := by
  cases rounds
  case nil => cases h
  case cons round rounds =>
    simp only [pselectTimedOut] at h
    split at h
    case h_1 => cases h; exact .failed rfl rfl
    case h_2 result hp => cases h; exact .finished hp (absurd · hd) rfl

theorem pselectLoop_ended (h : pselectLoop nfds sets readIn writeIn exceptIn deadline rounds = some selected) :
    Ended nfds sets readIn writeIn exceptIn deadline selected := by
  induction rounds
  case nil => cases h
  case cons round rounds hi =>
    simp only [pselectLoop] at h
    split at h
    case h_1 => cases h; exact .failed rfl rfl
    case h_2 result hp =>
      split at h
      case isTrue hr => cases h; exact .finished hp (fun _ => hr) rfl
      case isFalse =>
        split at h
        case h_1 deadline =>
          split at h
          case isTrue => cases h; exact .finished hp nofun rfl
          case isFalse =>
            split at h
            case h_1 => cases h; exact .failed rfl rfl
            case h_2 => exact pselectTimedOut_ended h (by simp)
            case h_3 => exact hi h
        case h_2 =>
          split at h
          case h_1 => cases h; exact .failed rfl rfl
          case h_2 => exact hi h

end

-- One set from its load to its store.
theorem stored_bit {user user' : Option UserFdSet} {ready : Nat → Bool} {out : List (BitVec 64)}
    (hl : loadFdset user nfds = .ok words) (hs : storeFdset user out = (.ok (), user'))
    (hlen : out.length = words.length)
    (hout : ∀ fd, fdsetContains out fd = (decide (fd < nfds) && (fdsetContains words fd && ready fd))) :
    (fd < nfds → UserFdSet.has user' fd = (UserFdSet.has user fd && ready fd)) ∧
      (nfds ≤ fd → UserFdSet.has user' fd = if fd < 64 * fdsetWords nfds then false else UserFdSet.has user fd) := by
  have ⟨hlw, hbits⟩ := loadFdset_ok hl
  rw [storeFdset_ok hs, hlen, hlw]
  refine ⟨fun hf => ?_, fun hf => ?_⟩
  case refine_1 =>
    rw [if_pos (div_lt_fdsetWords hf), hout, hbits fd hf]
    cases user <;> simp [UserFdSet.has, hf]
  case refine_2 =>
    have hw : fd / 64 < fdsetWords nfds ↔ fd < 64 * fdsetWords nfds := by omega
    have hn : decide (fd < nfds) = false := by simpa using hf
    simp only [hw, hout, hn, Bool.false_and, Bool.and_false]

namespace PselectCall

variable {δ : Type} {call : PselectCall} {sets : UserFdSets} {selected : Pselected δ} {round : PollRound δ}
  {rest : List (PollRound δ)} {n : Nat}

-- What is stored by a call that does not fail.
structure Stored (call : PselectCall) (sets : UserFdSets) (selected : Pselected δ) (n : Nat) : Prop where
  count : n = (List.range call.nfds).countP fun fd =>
    sets.isSet .read fd && selected.last.ready .read fd || sets.isSet .write fd && selected.last.ready .write fd
  below : ∀ which fd, fd < call.nfds →
    selected.sets.isSet which fd = (sets.isSet which fd && selected.last.ready which fd)
  above : ∀ which fd, call.nfds ≤ fd → selected.sets.isSet which fd =
    if fd < 64 * fdsetWords call.nfds then false else sets.isSet which fd
  waits : call.timeout = .null → call.nfds ≠ 0 → n ≠ 0

theorem ready_except {state : PollState δ} : state.ready .except fd = false := by
  simp [PollState.ready, SelectSet.choose]

theorem finish_stored {readIn writeIn exceptIn : List (BitVec 64)} {result : PselectPollResult}
    (hr : loadFdset sets.readfds call.nfds = .ok readIn) (hw : loadFdset sets.writefds call.nfds = .ok writeIn)
    (he : loadFdset sets.exceptfds call.nfds = .ok exceptIn)
    (hp : round.state.pselectPoll call.nfds readIn writeIn exceptIn = .ok result)
    (hn : call.timeout = .null → result.ready ≠ 0) (hf : (round.finish sets result).result = .ok n) :
    call.Stored sets (round.finish sets result) n := by
  have hp := PollState.pselectPoll_ok hp
  simp only [PollRound.finish] at hf ⊢
  split at hf
  case h_1 => cases hf
  case h_2 sets' hs =>
    cases hf
    have ⟨hsr, hsw, hse⟩ := UserFdSets.store_ok hs
    have hexcept (fd : Nat) : fdsetContains result.exceptOut fd =
        (decide (fd < call.nfds) && (fdsetContains exceptIn fd && round.state.ready .except fd)) := by
      rw [hp.except, fdsetContains_replicate, ready_except, Bool.and_false, Bool.and_false]
    have hbit (which : SelectSet) (fd : Nat) :
        (fd < call.nfds → sets'.isSet which fd = (sets.isSet which fd && round.state.ready which fd)) ∧
          (call.nfds ≤ fd → sets'.isSet which fd =
            if fd < 64 * fdsetWords call.nfds then false else sets.isSet which fd) := by
      cases which
      case read => exact @stored_bit _ fd _ _ _ _ _ hr hsr hp.readLength hp.read
      case write => exact @stored_bit _ fd _ _ _ _ _ hw hsw hp.writeLength hp.write
      case except => exact @stored_bit _ fd _ _ _ _ _ he hse (by rw [hp.except, List.length_replicate]) hexcept
    refine ⟨?_, fun which fd => (hbit which fd).left, fun which fd => (hbit which fd).right, fun ht _ => hn ht⟩
    rw [hp.ready]
    refine List.countP_congr fun fd hm => ?_
    have hf := List.mem_range.mp hm
    rw [(loadFdset_ok hr).right fd hf, (loadFdset_ok hw).right fd hf]
    rfl

-- The bits that a call leaves are more than it returns by the descriptors that are ready in two sets.
theorem Stored.bitCount (hs : call.Stored sets selected n) :
    n + (List.range call.nfds).countP (fun fd => selected.sets.isSet .read fd && selected.sets.isSet .write fd) =
      selected.sets.bitCount call.nfds .read + selected.sets.bitCount call.nfds .write +
        selected.sets.bitCount call.nfds .except := by
  have hexcept : selected.sets.bitCount call.nfds .except = 0 := by
    rw [UserFdSets.bitCount, List.countP_eq_zero]
    intro fd hm
    simp [hs.below .except fd (List.mem_range.mp hm), ready_except]
  have hn : n = (List.range call.nfds).countP fun fd =>
      selected.sets.isSet .read fd || selected.sets.isSet .write fd := by
    refine hs.count.trans (List.countP_congr fun fd hm => ?_)
    rw [hs.below .read fd (List.mem_range.mp hm), hs.below .write fd (List.mem_range.mp hm)]
  rw [hexcept, hn, Nat.add_zero, Lists.countP_or_add]
  rfl

theorem Stored.plain (hs : call.Stored sets selected n) (hr : selected.result = .ok n)
    (ha : call.Agrees sets selected) : call.Plain sets selected.last where
  waits ht := by
    have ⟨_, _, hf, _⟩ := ha.waits n hr ht
    omega
  once fd hf hread hwrite := by
    rw [PollState.reports_iff, PollState.reports_iff]
    have hc := ha.counted n hr
    have hz : (List.range call.nfds).countP
        (fun fd => selected.sets.isSet .read fd && selected.sets.isSet .write fd) = 0 := by
      have := hs.bitCount
      omega
    have hz := List.countP_eq_zero.mp hz fd (List.mem_range.mpr hf)
    rw [hs.below .read fd hf, hs.below .write fd hf, hread, hwrite] at hz
    simpa using hz
  above which fd hle hlt := by
    have h := hs.above which fd hle
    rwa [if_pos hlt, ha.above n which fd hr hle, eq_comm, eq_comm] at h

theorem Stored.agrees (hs : call.Stored sets selected n) (hr : selected.result = .ok n)
    (hp : call.Plain sets selected.last) : call.Agrees sets selected where
  counted m hm := by
    cases hr.symm.trans hm
    rw [← hs.bitCount, List.countP_eq_zero.mpr, Nat.add_zero]
    intro fd hm
    have hf := List.mem_range.mp hm
    rw [hs.below .read fd hf, hs.below .write fd hf]
    have ho := hp.once fd hf
    rw [PollState.reports_iff, PollState.reports_iff] at ho
    simp only [Bool.and_eq_true]
    exact fun h => ho h.left.left h.right.left ⟨h.left.right, h.right.right⟩
  subset m which fd _ hf hset := by
    rw [hs.below which fd hf, Bool.and_eq_true] at hset
    exact hset.left
  reported m which fd _ hf := by
    rw [hs.below which fd hf, Bool.and_eq_true, PollState.reports_iff]
  above m which fd _ hle := by
    rw [hs.above which fd hle]
    split
    case isTrue hlt => exact (hp.above which fd hle hlt).symm
    case isFalse => rfl
  waits m hm ht := by
    have hn := hs.waits ht (hp.waits ht)
    rw [hs.count, ← Nat.pos_iff_ne_zero, List.countP_pos_iff] at hn
    have ⟨fd, hm, hready⟩ := hn
    have hf := List.mem_range.mp hm
    rw [Bool.or_eq_true, Bool.and_eq_true, Bool.and_eq_true] at hready
    simp only [PollState.reports_iff]
    exact hready.elim (fun h => ⟨.read, fd, hf, h⟩) (fun h => ⟨.write, fd, hf, h⟩)
  failed err _ he := by cases hr.symm.trans he

-- A call that fails keeps its promise if it leaves the sets alone.
theorem agrees_of_error {err : SysErrNo} (hr : selected.result = .error err)
    (hs : err = .EFAULT ∨ selected.sets = sets) : call.Agrees sets selected where
  counted n hn := by cases hr.symm.trans hn
  subset n _ _ hn := by cases hr.symm.trans hn
  reported n _ _ hn := by cases hr.symm.trans hn
  above n _ _ hn := by cases hr.symm.trans hn
  waits n hn := by cases hr.symm.trans hn
  failed err' hm he := by
    cases hr.symm.trans he
    exact hs.resolve_left fun h => by simp [h] at hm

theorem finish_cases {result : PselectPollResult} :
    (round.finish sets result).result = .error .EFAULT ∨ (round.finish sets result).result = .ok result.ready := by
  simp only [PollRound.finish]
  split
  case h_1 h => exact .inl (by rw [UserFdSets.store_error h])
  case h_2 => exact .inr rfl

-- A call without descriptors stores nothing.
theorem stored_zero (hz : call.nfds = 0) (hs : selected.sets = sets) : call.Stored sets selected 0 where
  count := by simp [hz]
  below _ fd hf := by omega
  above _ _ _ := by simp [hs, hz, fdsetWords]
  waits _ hn := absurd hz hn

theorem deadline_none {deadline : Option Nat} {now : Nat} {timeout : TimeoutArg}
    (h : deadlineFromTimespec now timeout = .ok deadline) : timeout = .null ↔ deadline = none := by
  cases timeout
  case null => cases h; simp
  case unmapped => cases h
  case timespec tvSec tvNsec =>
    simp only [deadlineFromTimespec, Except.map] at h
    split at h <;> cases h
    simp

-- How a call ends.
theorem sysPselect6_cases (h : call.sysPselect6 sets round rest = some selected) :
    (∃ err, selected.result = .error err ∧ (err = .EFAULT ∨ selected.sets = sets)) ∨
      ∃ n, selected.result = .ok n ∧ call.Stored sets selected n := by
  simp only [sysPselect6] at h
  split at h
  case h_1 => cases h; exact .inl ⟨_, rfl, .inr rfl⟩
  case h_2 deadline hd =>
    split at h
    case isTrue => cases h; exact .inl ⟨_, rfl, .inr rfl⟩
    case isFalse =>
      split at h
      case isTrue hz =>
        split at h
        case h_1 => cases h; exact .inl ⟨_, rfl, .inr rfl⟩
        case h_2 => cases h; exact .inr ⟨0, rfl, stored_zero hz rfl⟩
      case isFalse =>
        split at h
        case h_1 | h_2 | h_3 => cases h; exact .inl ⟨_, rfl, .inr rfl⟩
        case h_4 hr hw he =>
          cases pselectLoop_ended h
          case failed err hres hs => exact .inl ⟨err, hres, .inr hs⟩
          case finished round result hp hn hf =>
            subst hf
            cases @finish_cases _ sets round result
            case inl hres => exact .inl ⟨_, hres, .inl rfl⟩
            case inr hres =>
              exact .inr ⟨_, hres, finish_stored hr hw he hp (fun ht => hn ((deadline_none hd).mp ht)) hres⟩

-- A call does what it promises exactly if it fails or what it finds is plain.
theorem pselect_agrees_iff (h : call.sysPselect6 sets round rest = some selected) :
    call.Agrees sets selected ↔ ∀ n, selected.result = .ok n → call.Plain sets selected.last := by
  cases sysPselect6_cases h
  case inl h =>
    have ⟨err, hr, hs⟩ := h
    exact iff_of_true (agrees_of_error hr hs) fun n hn => by cases hr.symm.trans hn
  case inr h =>
    have ⟨n, hr, hs⟩ := h
    exact ⟨fun ha _ _ => hs.plain hr ha, fun hp => hs.agrees hr (hp n hr)⟩

-- Descriptor 0 is a loop device that is open for reading and writing, and it is the only one that is asked about.
def loopRound : PollRound Unit :=
  ⟨⟨.new (.loopDevice ⟨0, 0, true, true⟩) .stdout .stderr, .init ()⟩, 0, .ok .woken⟩

def oneSet : UserFdSet :=
  ⟨fun _ => 1, fun _ => true, fun _ => true⟩

def oneCall : PselectCall :=
  ⟨1, .null, 0⟩

theorem pselect_agrees_one : ∃ selected, oneCall.sysPselect6 ⟨some oneSet, none, none⟩ loopRound [] = some selected ∧
    selected.result = .ok 1 ∧ (oneCall.Agrees ⟨some oneSet, none, none⟩ selected ↔
      ∀ n, selected.result = .ok n → oneCall.Plain ⟨some oneSet, none, none⟩ selected.last) := by
  have h : oneCall.sysPselect6 ⟨some oneSet, none, none⟩ loopRound [] = some _ := rfl
  exact ⟨_, h, rfl, pselect_agrees_iff h⟩

-- In two sets it is counted once.
theorem pselect_miscounts : ¬ ∀ (call : PselectCall) (sets : UserFdSets) (round : PollRound Unit)
    (rest : List (PollRound Unit)) (selected : Pselected Unit),
      call.sysPselect6 sets round rest = some selected → call.Agrees sets selected := by
  intro h
  have h := (h oneCall ⟨some oneSet, some oneSet, none⟩ loopRound [] _ rfl).counted 1 rfl
  exact absurd h (by decide)

end PselectCall

end WllOs.Fs
