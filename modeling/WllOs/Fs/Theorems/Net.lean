import WllOs.Fs.Net
import WllOs.Fs.Theorems.Objects
import WllOs.Fs.Theorems.Readiness

namespace WllOs.Fs

theorem SocketState.writePeer_error {sockets : Sockets} {socket : SocketState} {err : SysErrNo}
    (h : socket.writePeer sockets = .error err) : err = .EPIPE ∨ err = .ENOTCONN := by
  simp only [writePeer] at h
  split at h
  case isTrue => simp_all
  case isFalse =>
    split at h
    case isTrue => simp_all
    case isFalse =>
      split at h
      case isTrue => simp_all
      case isFalse => cases hp : socket.livePeer sockets <;> simp_all

theorem Sockets.update_inj {sockets : Sockets} {id : Nat} {socket socket' : SocketState} :
    sockets.update id socket = sockets.update id socket' ↔ socket = socket' := by
  constructor
  case mp =>
    intro h
    simpa [update] using congrArg (fun sockets : Sockets => sockets.states id) h
  case mpr => exact congrArg _

theorem UserMemory.copyFromUser_length {memory : UserMemory} {src len : Nat} {data : List UInt8}
    (h : memory.copyFromUser src len = .ok data) : data.length = len := by
  simp only [copyFromUser] at h
  split at h
  case isTrue hl => simp_all
  case isFalse =>
    split at h
    case isTrue => cases h
    case isFalse =>
      split at h
      case isTrue =>
        cases h
        simp
      case isFalse => cases h

theorem UserMemory.copyFromUser_error {memory : UserMemory} {src len : Nat} {err : SysErrNo}
    (h : memory.copyFromUser src len = .error err) : err = .EFAULT := by
  simp only [copyFromUser] at h
  split at h
  case isTrue => cases h
  case isFalse =>
    split at h
    case isTrue => simp_all
    case isFalse =>
      split at h
      case isTrue => cases h
      case isFalse => simp_all

theorem UserMemory.copyToUser_error {memory : UserMemory} {dst : Nat} {src : List UInt8} {err : SysErrNo}
    (h : memory.copyToUser dst src = .error err) : err = .EFAULT := by
  simp only [copyToUser] at h
  split at h
  case isTrue => cases h
  case isFalse =>
    split at h
    case isTrue => simp_all
    case isFalse => split at h <;> simp_all

namespace Net

variable {net : Net} {memory : UserMemory} {id buf len : Nat} {data : List UInt8}

theorem source_ne : (net.source id).bytes ≠ [] := by
  intro h
  have := (net.source id).hasFamily
  simp [h] at this

theorem sendDatagram_cases : net.sendDatagram id data = ⟨.error .EDESTADDRREQ, net, false⟩ ∨
    net.sendDatagram id data = ⟨.error .ECONNREFUSED, net, false⟩ ∨
    ∃ peer,
      let received := net.sockets.states peer
      let dgramQueue := received.dgramQueue ++ [⟨data, (net.source id).bytes⟩]
      net.sendDatagram id data =
        ⟨.ok data.length, { net with sockets := net.sockets.update peer { received with dgramQueue } }, false⟩ := by
  simp only [sendDatagram]
  split
  case h_1 => exact .inl rfl
  case h_2 =>
    split
    case h_1 => exact .inr (.inl rfl)
    case h_2 peer _ => exact .inr (.inr ⟨peer, rfl⟩)

theorem sendPeer_result_ne : (net.sendPeer id data).result ≠ .error .EINVAL := by
  simp only [sendPeer]
  split
  case isTrue => simp
  case isFalse =>
    split
    case h_1 => simp
    case h_2 => simp

theorem sendto_result_ne (hl : 0 < len) (hb : buf ≠ 0) :
    (net.sendto memory id buf len).result ≠ .error .EINVAL := by
  simp only [sendto, hb, and_false, if_false, Nat.ne_of_gt hl]
  split
  case isTrue => simp
  case isFalse =>
    split
    case isTrue => simp
    case isFalse =>
      split
      case isTrue => simp
      case isFalse =>
        split
        case h_1 err hc => simp [UserMemory.copyFromUser_error hc]
        case h_2 data _ =>
          split
          case isTrue =>
            have hs := @sendDatagram_cases net id data
            obtain h | h | ⟨peer, h⟩ := hs <;> simp [h]
          case isFalse => exact sendPeer_result_ne

-- What a write of bytes that have been copied does.
theorem write_ok (hl : 0 < len) (hb : buf ≠ 0) (hm : len ≤ MAX_FILE_OFFSET)
    (hc : memory.copyFromUser buf len = .ok data) : net.write memory id buf len =
      match (net.sockets.states id).writePeer net.sockets with
      | .error err => ⟨.error err, net, err = .EPIPE⟩
      | .ok peer   =>
        if (net.sockets.states peer).shutdownRead then ⟨.error .EPIPE, net, true⟩
        else
          let received := (net.sockets.states peer).push ⟨data, []⟩
          ⟨.ok data.length, { net with sockets := net.sockets.update peer received }, false⟩ := by
  have hd : data ≠ [] := by
    have := UserMemory.copyFromUser_length hc
    intro h
    simp [h] at this
    omega
  simp only [write, hb, if_false, Nat.ne_of_gt hl, Nat.not_lt.mpr hm, hc, Sockets.write, List.isEmpty_iff, hd]
  cases (net.sockets.states id).writePeer net.sockets
  case error err => cases err <;> simp
  case ok peer =>
    dsimp only
    split
    case isTrue => simp
    case isFalse => simp

-- The address that a datagram gets from `sendto` is not empty, so no `write` sends the same.
theorem push_ne_sendDatagram {peer peer' : Nat} {addr : List UInt8} (ha : addr ≠ []) :
    net.sockets.update peer ((net.sockets.states peer).push ⟨data, []⟩) ≠
      net.sockets.update peer' { net.sockets.states peer' with
        dgramQueue := (net.sockets.states peer').dgramQueue ++ [⟨data, addr⟩] } := by
  intro h
  have hq := congrArg (fun sockets : Sockets => (sockets.states peer').dgramQueue) h
  by_cases hp : peer' = peer
  case pos =>
    subst hp
    by_cases hm : (net.sockets.states peer').isMessageOriented
    case pos => simp [Sockets.update, SocketState.push, hm, ha.symm] at hq
    case neg => simp [Sockets.update, SocketState.push, hm] at hq
  case neg => simp [Sockets.update, Function.update_of_ne hp] at hq

-- A peer with messages gets an address with them from `sendto`, or has a stream of bytes there.
theorem push_eq_send_iff {socket : SocketState} {addr : List UInt8} (ha : addr ≠ []) :
    socket.push ⟨data, []⟩ = socket.send ⟨data, addr⟩ ↔ ¬socket.isMessageOriented := by
  constructor
  case mp =>
    intro h hm
    have hq := congrArg SocketState.dgramQueue h
    by_cases hs : socket.isSeqpacket
    case pos => simp [SocketState.push, SocketState.send, hm, hs, ha.symm] at hq
    case neg => simp [SocketState.push, SocketState.send, hm, hs] at hq
  case mpr =>
    intro hm
    have hs : ¬socket.isSeqpacket := by
      intro hs
      exact hm (by simp [SocketState.isMessageOriented, hs])
    simp [SocketState.push, SocketState.send, hm, hs]

theorem write_ne_sendDatagram (hl : 0 < len) (hb : buf ≠ 0) (hm : len ≤ MAX_FILE_OFFSET)
    (hc : memory.copyFromUser buf len = .ok data) : net.write memory id buf len ≠ net.sendDatagram id data := by
  rw [write_ok hl hb hm hc]
  have hs := @sendDatagram_cases net id data
  have hw := @SocketState.writePeer_error net.sockets (net.sockets.states id)
  cases hp : (net.sockets.states id).writePeer net.sockets
  case error err =>
    obtain h | h := hw hp
    all_goals
      subst h
      obtain h | h | ⟨peer, h⟩ := hs <;> simp [h]
  case ok peer =>
    dsimp only
    split
    case isTrue => obtain h | h | ⟨peer, h⟩ := hs <;> simp [h]
    case isFalse =>
      obtain h | h | ⟨peer', h⟩ := hs
      case inl => simp [h]
      case inr.inl => simp [h]
      case inr.inr =>
        rw [h]
        intro h
        injection h with _ h
        injection h with h
        exact push_ne_sendDatagram source_ne h

theorem write_eq_sendPeer_iff (hl : 0 < len) (hb : buf ≠ 0) (hm : len ≤ MAX_FILE_OFFSET)
    (hc : memory.copyFromUser buf len = .ok data) (hs : ¬(net.sockets.states id).shutdownWrite)
    (ho : (net.sockets.states id).isConnectionOriented → (net.sockets.states id).connected) :
    net.write memory id buf len = net.sendPeer id data ↔
      (¬(net.sockets.states id).peerReadClosed →
        ∀ peer, (net.sockets.states id).livePeer net.sockets = some peer →
          ¬(net.sockets.states peer).shutdownRead ∧ ¬(net.sockets.states peer).isMessageOriented) := by
  have ho' : ¬((net.sockets.states id).isConnectionOriented ∧ ¬(net.sockets.states id).connected) := by
    intro ⟨h, h'⟩
    exact h' (ho h)
  rw [write_ok hl hb hm hc]
  simp only [SocketState.writePeer, sendPeer, hs, ho', if_false]
  by_cases hp : (net.sockets.states id).peerReadClosed
  case pos => simp [hp]
  case neg =>
    simp only [hp]
    cases hl : (net.sockets.states id).livePeer net.sockets
    case none => simp
    case some peer =>
      simp only [Option.elim]
      by_cases hr : (net.sockets.states peer).shutdownRead
      case pos => simp [hr]
      case neg =>
        have hi := @push_eq_send_iff data (net.sockets.states peer) (net.source id).bytes source_ne
        have hu := @Sockets.update_inj net.sockets peer
          ((net.sockets.states peer).push ⟨data, []⟩) ((net.sockets.states peer).send ⟨data, (net.source id).bytes⟩)
        rw [← hu] at hi
        simp [hr, hi]

theorem write_result_ne (hl : 0 < len) (hb : buf ≠ 0) (hm : len ≤ MAX_FILE_OFFSET)
    (hc : memory.copyFromUser buf len = .ok data) : (net.write memory id buf len).result ≠ .error .EMSGSIZE := by
  rw [write_ok hl hb hm hc]
  have hw := @SocketState.writePeer_error net.sockets (net.sockets.states id)
  cases hp : (net.sockets.states id).writePeer net.sockets
  case error err => obtain h | h := hw hp <;> simp [h]
  case ok peer =>
    dsimp only
    split <;> simp

-- If the buffer cannot be read, `write` fails before it looks at the socket.
theorem write_eq_sendto_error {err : SysErrNo} (hl : 0 < len) (hb : buf ≠ 0) (hm : len ≤ MAX_FILE_OFFSET)
    (hc : memory.copyFromUser buf len = .error err) :
    net.write memory id buf len = net.sendto memory id buf len ↔
      ¬(net.sockets.states id).shutdownWrite ∧
        ((net.sockets.states id).isConnectionOriented → (net.sockets.states id).connected) ∧
        ((net.sockets.states id).isDatagram → len ≤ UDP_MAX_PAYLOAD) := by
  have := UserMemory.copyFromUser_error hc
  subst this
  simp only [write, sendto, hb, and_false, if_false, Nat.ne_of_gt hl, Nat.not_lt.mpr hm, hc]
  by_cases hs : (net.sockets.states id).shutdownWrite
  case pos => simp [hs]
  case neg =>
    by_cases ho : (net.sockets.states id).isConnectionOriented ∧ ¬(net.sockets.states id).connected
    case pos => simp [hs, ho]
    case neg =>
      rw [if_neg hs, if_neg ho]
      simp only [not_and, not_not] at ho
      by_cases hd : (net.sockets.states id).isDatagram ∧ len > UDP_MAX_PAYLOAD
      case pos => simp [hd]
      case neg =>
        rw [if_neg hd]
        simp only [not_and, Nat.not_lt] at hd
        simp only [Bool.not_eq_true] at hs
        simpa [hs] using And.intro ho hd

theorem write_eq_sendto_ok (hl : 0 < len) (hb : buf ≠ 0) (hm : len ≤ MAX_FILE_OFFSET)
    (hc : memory.copyFromUser buf len = .ok data) (hs : ¬(net.sockets.states id).shutdownWrite)
    (ho : (net.sockets.states id).isConnectionOriented → (net.sockets.states id).connected) :
    net.write memory id buf len = net.sendto memory id buf len ↔
      ¬(net.sockets.states id).isDatagram ∧ (¬(net.sockets.states id).peerReadClosed →
        ∀ peer, (net.sockets.states id).livePeer net.sockets = some peer →
          ¬(net.sockets.states peer).shutdownRead ∧ ¬(net.sockets.states peer).isMessageOriented) := by
  have ho' : ¬((net.sockets.states id).isConnectionOriented ∧ ¬(net.sockets.states id).connected) := by
    intro ⟨h, h'⟩
    exact h' (ho h)
  have ht : net.sendto memory id buf len =
      if (net.sockets.states id).isDatagram ∧ len > UDP_MAX_PAYLOAD then ⟨.error .EMSGSIZE, net, false⟩
      else if (net.sockets.states id).isDatagram then net.sendDatagram id data else net.sendPeer id data := by
    simp only [sendto, hb, and_false, if_false, Nat.ne_of_gt hl, hs, ho', hc, Bool.false_eq_true]
  rw [ht]
  by_cases hd : (net.sockets.states id).isDatagram
  case neg =>
    simp only [hd, false_and, if_false, Bool.false_eq_true, not_false_iff, true_and]
    exact write_eq_sendPeer_iff hl hb hm hc hs ho
  case pos =>
    simp only [hd, true_and, if_true, not_true, false_and, iff_false]
    split
    case isTrue =>
      intro h
      have := @write_result_ne net _ id _ _ _ hl hb hm hc
      simp [h] at this
    case isFalse => exact write_ne_sendDatagram hl hb hm hc

theorem write_eq_sendto_iff (hl : 0 < len) :
    net.write memory id buf len = net.sendto memory id buf len ↔ net.SendsAlike memory id buf len := by
  by_cases hb : buf = 0
  case pos => simp [SendsAlike, write, sendto, hb, Nat.ne_of_gt hl]
  case neg =>
    by_cases hm : len ≤ MAX_FILE_OFFSET
    case neg =>
      have hr := @sendto_result_ne net memory id buf len hl hb
      simp only [SendsAlike, hm, false_and, ne_eq, hb, not_false_iff, true_implies, iff_false]
      intro h
      rw [← h] at hr
      simp [write, hb, Nat.ne_of_gt hl, Nat.lt_of_not_le hm] at hr
    case pos =>
      simp only [SendsAlike, ne_eq, hb, hm, not_false_iff, true_implies, true_and]
      cases hc : memory.copyFromUser buf len
      case error => exact write_eq_sendto_error hl hb hm hc
      case ok data =>
        by_cases hs : (net.sockets.states id).shutdownWrite
        case pos =>
          rw [write_ok hl hb hm hc]
          simp [sendto, SocketState.writePeer, hb, Nat.ne_of_gt hl, hs]
        case neg =>
          by_cases ho : (net.sockets.states id).isConnectionOriented → (net.sockets.states id).connected
          case pos =>
            rw [write_eq_sendto_ok hl hb hm hc hs ho]
            simp only [hs, false_or, and_iff_left ho, Bool.false_eq_true]
          case neg =>
            rw [write_ok hl hb hm hc]
            simp only [Classical.not_imp] at ho
            simp [sendto, SocketState.writePeer, hb, Nat.ne_of_gt hl, hs, ho]

-- The two attempts to receive do the same.
theorem read_eq_recv (hl : 0 < len) {result : Except SysErrNo (List UInt8)} {socket : SocketState}
    (h : net.recv id len = some (result, socket)) : result ≠ .error .EAGAIN ∧
      ∃ wake, (net.sockets.states id).read net.sockets len = (result, socket, wake) := by
  simp only [recv] at h
  simp only [SocketState.read, if_neg (Nat.ne_of_gt hl)]
  split at h
  case isTrue hr =>
    cases h
    simp [hr]
  case isFalse hr =>
    split at h
    case isTrue ho =>
      cases h
      simp [hr, ho]
    case isFalse ho =>
      rw [if_neg hr, if_neg ho]
      split at h
      case isTrue hm =>
        rw [if_pos hm]
        split at h
        case h_1 hq =>
          cases h
          simp [hq]
        case h_2 hq =>
          split at h
          case isTrue he =>
            cases h
            simp [hq, he]
          case isFalse => cases h
      case isFalse hm =>
        rw [if_neg hm]
        split at h
        case isTrue hb =>
          cases h
          simp_all
        case isFalse hb =>
          split at h
          case isTrue he =>
            cases h
            simp_all
          case isFalse => cases h

theorem read_eq_none (hl : 0 < len) (h : net.recv id len = none) :
    (net.sockets.states id).read net.sockets len = (.error .EAGAIN, net.sockets.states id, false) := by
  simp only [recv] at h
  simp only [SocketState.read, if_neg (Nat.ne_of_gt hl)]
  split at h
  case isTrue => cases h
  case isFalse hr =>
    split at h
    case isTrue => cases h
    case isFalse ho =>
      rw [if_neg hr, if_neg ho]
      split at h
      case isTrue hm =>
        rw [if_pos hm]
        split at h
        case h_1 => cases h
        case h_2 hq =>
          split at h
          case isTrue => cases h
          case isFalse he => simp [hq, he]
      case isFalse hm =>
        rw [if_neg hm]
        split at h
        case isTrue => cases h
        case isFalse hb =>
          split at h
          case isTrue => cases h
          case isFalse he => simp_all

theorem readLoop_cons (hl : 0 < len) (round : Round) (rest : List Round) : readLoop id buf len (round :: rest) =
    match round.net.recv id len with
    | some (result, socket) => some (round.finish id buf result socket rest)
    | none                  => round.wait id (round.net.deadline id round.now) (readLoop id buf len rest) rest := by
  simp only [readLoop]
  cases hr : round.net.recv id len
  case none => rw [read_eq_none hl hr]
  case some received =>
    have ⟨hn, wake, h⟩ := read_eq_recv hl hr
    rw [h]
    dsimp only
    split
    case h_1 h => simp_all
    case h_2 h => simp_all

theorem finish_rest (round : Round) (result : Except SysErrNo (List UInt8)) (socket : SocketState)
    (rest : List Round) : (round.finish id buf result socket rest).rest = rest := by
  simp only [Round.finish]
  split
  case h_1 => rfl
  case h_2 => split <;> rfl

theorem wait_cases {round : Round} {deadline : Option Nat} {again : Option Received} {rest : List Round}
    {received : Received} (h : round.wait id deadline again rest = some received) :
    again = some received ∨ ∃ err, err ≠ .EINVAL ∧ received = round.fail err rest := by
  simp only [Round.wait] at h
  split at h
  case isTrue =>
    cases h
    exact .inr ⟨.EAGAIN, by simp, rfl⟩
  case isFalse =>
    split at h
    case isTrue => exact .inl h
    case isFalse =>
      cases ho : round.wakeup.outcome deadline
      case none => simp [Round.afterSleep, ho] at h
      case some outcome =>
        cases outcome
        case woken => exact .inl (by simpa [Round.afterSleep, ho] using h)
        case timedOut =>
          simp only [Round.afterSleep, ho, Option.some.injEq] at h
          exact .inr ⟨.EAGAIN, by simp, h.symm⟩
        case interrupted =>
          simp only [Round.afterSleep, ho, Option.some.injEq] at h
          exact .inr ⟨.EINTR, by simp, h.symm⟩

theorem recvLoop_rest {deadline : Option Nat} {rounds : List Round} {received : Received}
    (h : recvLoop id buf len deadline rounds = some received) : received.rest.length < rounds.length := by
  induction rounds
  case nil => cases h
  case cons round rest hi =>
    simp only [recvLoop] at h
    split at h
    case h_1 =>
      cases h
      simp [finish_rest]
    case h_2 =>
      obtain h | ⟨err, _, h⟩ := wait_cases h
      case inl => exact Nat.lt_succ_of_lt (hi h)
      case inr => simp [h, Round.fail]

theorem readLoop_rest (hl : 0 < len) {rounds : List Round} {received : Received}
    (h : readLoop id buf len rounds = some received) : received.rest.length < rounds.length := by
  induction rounds
  case nil => cases h
  case cons round rest hi =>
    rw [readLoop_cons hl] at h
    split at h
    case h_1 =>
      cases h
      simp [finish_rest]
    case h_2 =>
      obtain h | ⟨err, _, h⟩ := wait_cases h
      case inl => exact Nat.lt_succ_of_lt (hi h)
      case inr => simp [h, Round.fail]

-- Each outcome of a sleep can be told from the others, as a call that goes on uses up another round or does not return.
theorem afterSleep_eq_iff {round : Round} {rest : List Round} {again again' : Option Received}
    (hr : ∀ received, again = some received → received.rest ≠ rest)
    (hr' : ∀ received, again' = some received → received.rest ≠ rest) (deadline deadline' : Option Nat) :
    round.afterSleep again rest (round.wakeup.outcome deadline) =
        round.afterSleep again' rest (round.wakeup.outcome deadline') ↔
      round.wakeup.outcome deadline = round.wakeup.outcome deadline' ∧
        (round.wakeup.outcome deadline' = some .woken → again = again') := by
  have hn (err : SysErrNo) : again ≠ some (round.fail err rest) := by
    intro h
    exact hr _ h rfl
  have hn' (err : SysErrNo) : some (round.fail err rest) ≠ again' := by
    intro h
    exact hr' _ h.symm rfl
  cases round.wakeup
  case woken time =>
    simp only [Wakeup.outcome]
    cases Wakeup.beforeDeadline deadline time <;> cases Wakeup.beforeDeadline deadline' time <;>
      simp [Round.afterSleep, hn, hn']
  case interrupted time =>
    simp only [Wakeup.outcome]
    cases Wakeup.beforeDeadline deadline time <;> cases Wakeup.beforeDeadline deadline' time <;>
      simp [Round.afterSleep, Round.fail]
  case never => cases deadline <;> cases deadline' <;> simp [Wakeup.outcome, Round.afterSleep]

theorem readLoop_eq_recvLoop_iff (hl : 0 < len) (deadline : Option Nat) (rounds : List Round) :
    readLoop id buf len rounds = recvLoop id buf len deadline rounds ↔ WaitsAlike id len deadline rounds := by
  induction rounds
  case nil => simp [readLoop, recvLoop, WaitsAlike]
  case cons round rest hi =>
    rw [readLoop_cons hl]
    simp only [recvLoop, WaitsAlike]
    cases hr : round.net.recv id len
    case some => simp
    case none =>
      simp only [Round.wait, true_implies]
      by_cases hn : (round.net.sockets.states id).nonblock
      case pos => simp [hn]
      case neg =>
        by_cases hb : round.net.readWouldBlock id
        case neg => simp [hn, hb, hi]
        case pos =>
          have hr (received : Received) (h : readLoop id buf len rest = some received) : received.rest ≠ rest :=
            ne_of_apply_ne List.length (Nat.ne_of_lt (readLoop_rest hl h))
          have hr' (received : Received) (h : recvLoop id buf len deadline rest = some received) :
              received.rest ≠ rest :=
            ne_of_apply_ne List.length (Nat.ne_of_lt (recvLoop_rest h))
          have hs := @afterSleep_eq_iff round rest _ _ hr hr' (round.net.deadline id round.now) deadline
          simp only [hn, hb, if_false, not_true, Bool.false_eq_true, not_false_iff, true_implies, false_or, ← hi]
          exact hs

theorem recv_result_ne {result : Except SysErrNo (List UInt8)} {socket : SocketState}
    (h : net.recv id len = some (result, socket)) : result ≠ .error .EINVAL := by
  intro he
  have hr : (net.recv id len).map (·.fst) = some (.error .EINVAL) := by
    simp [h, he]
  simp only [recv] at hr
  split at hr
  case isTrue => simp at hr
  case isFalse =>
    split at hr
    case isTrue => simp at hr
    case isFalse =>
      split at hr
      case isTrue =>
        split at hr
        case h_1 => simp at hr
        case h_2 => split at hr <;> simp at hr
      case isFalse =>
        split at hr
        case isTrue => simp at hr
        case isFalse => split at hr <;> simp at hr

theorem finish_result_ne {round : Round} {result : Except SysErrNo (List UInt8)} (h : result ≠ .error .EINVAL)
    (socket : SocketState) (rest : List Round) :
    (round.finish id buf result socket rest).result ≠ .error .EINVAL := by
  simp only [Round.finish]
  split
  case h_1 => simpa using h
  case h_2 =>
    split
    case h_1 hc => simp [UserMemory.copyToUser_error hc]
    case h_2 => simp

theorem recvLoop_result_ne {deadline : Option Nat} {rounds : List Round} {received : Received}
    (h : recvLoop id buf len deadline rounds = some received) : received.result ≠ .error .EINVAL := by
  induction rounds
  case nil => cases h
  case cons round rest hi =>
    simp only [recvLoop] at h
    split at h
    case h_1 result socket hr =>
      cases h
      exact finish_result_ne (recv_result_ne hr) socket rest
    case h_2 =>
      obtain h | ⟨err, he, h⟩ := wait_cases h
      case inl => exact hi h
      case inr =>
        subst h
        simpa [Round.fail] using he

theorem read_eq_recvfrom_iff (hl : 0 < len) (round : Round) (rest : List Round) :
    read id buf len round rest = recvfrom id buf len round rest ↔ ReceivesAlike id buf len round rest := by
  simp only [read, recvfrom, ReceivesAlike, if_neg (Nat.ne_of_gt hl)]
  by_cases hb : buf = 0
  case pos => simp [hb, Nat.ne_of_gt hl]
  case neg =>
    simp only [hb, and_false, if_false, ne_eq, not_false_iff, true_implies]
    by_cases hm : len ≤ MAX_FILE_OFFSET
    case pos =>
      rw [if_neg (Nat.not_lt.mpr hm), readLoop_eq_recvLoop_iff hl]
      simp only [hm, true_and]
    case neg =>
      rw [if_pos (Nat.lt_of_not_le hm)]
      simp only [hm, false_and, iff_false]
      intro h
      exact recvLoop_result_ne h.symm rfl

-- The calls of the two families do the same, exactly if the conditions hold.
theorem calls_agree_iff (net : Net) (memory : UserMemory) (id buf len : Nat) (hl : 0 < len) :
    (net.write memory id buf len = net.sendto memory id buf len ↔ net.SendsAlike memory id buf len) ∧
      ∀ round rest, read id buf len round rest = recvfrom id buf len round rest ↔
        ReceivesAlike id buf len round rest :=
  ⟨write_eq_sendto_iff hl, read_eq_recvfrom_iff hl⟩

-- A stream socket that has been created.
def unconnected : Net where
  sockets := Sockets.init.create (.new SOCK_STREAM false)
  names _ := ⟨AF_UNIX, false, none, none, false, none⟩
  bindings := []

def allMapped : UserMemory :=
  ⟨fun _ => 97, fun _ => true, fun _ => true⟩

theorem calls_agree_unconnected :
    (unconnected.write allMapped 0 4096 1 = unconnected.sendto allMapped 0 4096 1 ↔
      unconnected.SendsAlike allMapped 0 4096 1) ∧
      ∀ round rest, read 0 4096 1 round rest = recvfrom 0 4096 1 round rest ↔ ReceivesAlike 0 4096 1 round rest :=
  calls_agree_iff unconnected allMapped 0 4096 1 (by decide)

-- `write` fails with `ENOTCONN`, and `sendto` with `EPIPE` and a signal.
theorem not_calls_agree : ¬∀ (net : Net) (memory : UserMemory) (id buf len : Nat), 0 < len →
    net.write memory id buf len = net.sendto memory id buf len ∧
      ∀ round rest, read id buf len round rest = recvfrom id buf len round rest := by
  intro h
  have hw := congrArg Sent.sigpipe (h unconnected allMapped 0 4096 1 (by decide)).left
  have hc : allMapped.copyFromUser 4096 1 = .ok [97] := by decide
  rw [write_ok (by decide) (by decide) (by simp [MAX_FILE_OFFSET]) hc] at hw
  simp [sendto, SocketState.writePeer, unconnected, Sockets.create, Sockets.init, SocketState.new,
    SocketState.isConnectionOriented, SocketState.isStream] at hw

end Net

end WllOs.Fs
