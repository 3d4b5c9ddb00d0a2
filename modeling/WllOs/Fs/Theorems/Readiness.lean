import WllOs.Fs.Readiness

namespace WllOs.Fs

namespace SocketState

variable {socket : SocketState} {sockets : Sockets}

theorem isStream_iff : socket.isStream ↔ socket.sockType = SOCK_STREAM := by
  simp [isStream]

theorem isDatagram_iff : socket.isDatagram ↔ socket.sockType = SOCK_DGRAM := by
  simp [isDatagram]

theorem isSeqpacket_iff : socket.isSeqpacket ↔ socket.sockType = SOCK_SEQPACKET := by
  simp [isSeqpacket]

theorem not_isDatagram_of_isStream (h : socket.isStream) : ¬socket.isDatagram := by
  rw [isDatagram_iff, isStream_iff.mp h]
  decide

theorem not_isSeqpacket_of_isStream (h : socket.isStream) : ¬socket.isSeqpacket := by
  rw [isSeqpacket_iff, isStream_iff.mp h]
  decide

theorem not_isDatagram_of_isSeqpacket (h : socket.isSeqpacket) : ¬socket.isDatagram := by
  rw [isDatagram_iff, isSeqpacket_iff.mp h]
  decide

theorem isSeqpacket_of (hm : socket.isMessageOriented) (hd : ¬socket.isDatagram) : socket.isSeqpacket := by
  simpa [isMessageOriented, hd] using hm

theorem not_isMessageOriented_of_isStream (h : socket.isStream) : ¬socket.isMessageOriented := by
  simp [isMessageOriented, not_isDatagram_of_isStream h, not_isSeqpacket_of_isStream h]

end SocketState

namespace Sockets

open SocketState

variable {sockets : Sockets} {socket : SocketState} {id : Nat}

@[simp]
theorem update_next : (sockets.update id socket).next = sockets.next :=
  rfl

@[simp]
theorem update_alive : (sockets.update id socket).alive = sockets.alive :=
  rfl

theorem update_states {other : Nat} :
    (sockets.update id socket).states other = if other = id then socket else sockets.states other := by
  simp [update, Function.update_apply]

@[simp]
theorem create_next : (sockets.create socket).next = sockets.next + 1 :=
  rfl

theorem create_states {other : Nat} :
    (sockets.create socket).states other = if other = sockets.next then socket else sockets.states other := by
  simp [create, Function.update_apply]

-- An update that leaves the type of the socket as it is.
theorem Fits.update (f : sockets.Fits) (kind : socket.isDatagram = (sockets.states id).isDatagram)
    (fits : SocketFits sockets.next sockets.states socket) : (sockets.update id socket).Fits := by
  have same other : ((sockets.update id socket).states other).isDatagram = (sockets.states other).isDatagram := by
    rw [update_states]
    split
    case isTrue h => rw [kind, h]
    case isFalse => rfl
  have keeps {other : SocketState} (h : SocketFits sockets.next sockets.states other) :
      SocketFits sockets.next (sockets.update id socket).states other :=
    { __ := h, peer := fun peer hp => ⟨(h.peer peer hp).left, (same peer).trans (h.peer peer hp).right⟩ }
  intro other
  rw [update_next, update_states]
  split
  case isTrue  => exact keeps fits
  case isFalse => exact keeps (f other)

theorem fits_new {next : Nat} {states : Nat → SocketState} {sockType : Nat} (nonblock : Bool)
    (kind : sockType ∈ [SOCK_STREAM, SOCK_DGRAM, SOCK_SEQPACKET]) :
    SocketFits next states (.new sockType nonblock) where
  kind      := by simpa [isStream_iff, isDatagram_iff, isSeqpacket_iff, SocketState.new] using kind
  stream _  := rfl
  message _ := rfl
  pending h := absurd rfl h
  listening := nofun
  error     := rfl
  peer      := nofun

-- A socket is created beside those that there are.
theorem Fits.create (f : sockets.Fits)
    (fits : ∀ states : Nat → SocketState, (∀ other < sockets.next, states other = sockets.states other) →
      SocketFits (sockets.next + 1) states socket) : (sockets.create socket).Fits := by
  have old other (h : other < sockets.next) : (sockets.create socket).states other = sockets.states other :=
    Function.update_of_ne h.ne ..
  intro other
  by_cases h : other = sockets.next
  case pos =>
    rw [show (sockets.create socket).states other = socket from h ▸ Function.update_self ..]
    exact fits _ old
  case neg =>
    rw [show (sockets.create socket).states other = sockets.states other from Function.update_of_ne h ..]
    refine { __ := f other, peer := fun peer hp => ?_ }
    have ⟨hl, hd⟩ := (f other).peer peer hp
    exact ⟨Nat.lt_succ_of_lt hl, by rw [old peer hl, hd]⟩

theorem fits_init : init.Fits :=
  fun _ => fits_new false (by simp)

namespace SocketFits

variable {next : Nat} {states : Nat → SocketState}

theorem not_stream_of_message (h : socket.isMessageOriented) : ¬socket.isStream :=
  fun hs => not_isMessageOriented_of_isStream hs h

theorem push (f : SocketFits next states socket) (packet : SocketPacket) :
    SocketFits next states (socket.push packet) := by
  simp only [SocketState.push]
  split
  case isTrue h  => exact { __ := f, stream := fun hs => absurd hs (not_stream_of_message h) }
  case isFalse h => exact { __ := f, message := fun hm => absurd hm h }

theorem send (f : SocketFits next states socket) (packet : SocketPacket) (h : ¬socket.isDatagram) :
    SocketFits next states (socket.send packet) := by
  have same : socket.send packet = socket.push packet := by
    simp [SocketState.send, SocketState.push, isMessageOriented, h]
  exact same ▸ f.push packet

theorem accept (f : SocketFits next states socket) : SocketFits next states socket.accept.snd := by
  simp only [SocketState.accept]
  split
  case isTrue => exact f
  case isFalse =>
    split
    case isTrue => exact f
    case isFalse hl =>
      split
      case h_1 => exact { __ := f, pending := fun _ => by simpa using hl }
      case h_2 => exact f

theorem read (f : SocketFits next states socket) (sockets : Sockets) (len : Nat) :
    SocketFits next states (socket.read sockets len).snd.fst := by
  simp only [SocketState.read]
  split
  case isTrue => exact f
  case isFalse =>
  split
  case isTrue => exact f
  case isFalse =>
  split
  case isTrue => exact f
  case isFalse =>
  split
  case isTrue h =>
    split
    case h_1 => exact { __ := f, stream := fun hs => absurd hs (not_stream_of_message h) }
    case h_2 => exact f
  case isFalse h =>
  split
  case isTrue  => exact f
  case isFalse => exact { __ := f, message := fun hm => absurd hm h }

theorem listen {socket' : SocketState} (f : SocketFits next states socket) (h : socket.listen = .ok socket') :
    SocketFits next states socket' ∧ socket'.isDatagram = socket.isDatagram := by
  simp only [SocketState.listen] at h
  split at h
  case isTrue => cases h
  case isFalse hs =>
    split at h
    case isTrue => cases h
    case isFalse =>
      cases h
      have stream : socket.isStream := by simpa using hs
      exact ⟨{ __ := f, pending := fun _ => rfl, listening := fun _ => stream }, rfl⟩

theorem not_isDatagram (f : SocketFits next states socket) :
    ¬socket.isDatagram ↔ socket.isConnectionOriented := by
  rw [isConnectionOriented, Bool.or_eq_true]
  constructor
  case mp =>
    intro h
    exact f.kind.imp_right fun h' => h'.resolve_left h
  case mpr =>
    rintro (h | h)
    case inl => exact not_isDatagram_of_isStream h
    case inr => exact not_isDatagram_of_isSeqpacket h

theorem stream_of_not_message (f : SocketFits next states socket) (h : ¬socket.isMessageOriented) :
    socket.isStream := by
  simp only [isMessageOriented, Bool.or_eq_true, not_or] at h
  exact f.kind.resolve_right (not_or.mpr h)

end SocketFits

theorem isDatagram_push {packet : SocketPacket} : (socket.push packet).isDatagram = socket.isDatagram := by
  simp only [SocketState.push]
  split <;> rfl

theorem isDatagram_send {packet : SocketPacket} : (socket.send packet).isDatagram = socket.isDatagram := by
  simp only [SocketState.send]
  split <;> rfl

theorem isDatagram_accept : socket.accept.snd.isDatagram = socket.isDatagram := by
  simp only [SocketState.accept]
  repeat' split
  all_goals rfl

theorem isDatagram_read {len : Nat} : (socket.read sockets len).snd.fst.isDatagram = socket.isDatagram := by
  simp only [SocketState.read]
  repeat' split
  all_goals rfl

theorem SocketFits.connectedTo {next peer : Nat} {states : Nat → SocketState} (f : SocketFits next states socket)
    (hp : peer < next) (kind : (states peer).isDatagram = socket.isDatagram) :
    SocketFits next states (socket.connectedTo peer) := by
  refine ⟨f.kind, f.stream, f.message, f.pending, f.listening, f.error, ?_⟩
  rintro _ ⟨⟩
  exact ⟨hp, kind⟩

theorem Fits.connectTo (f : sockets.Fits) (id peer : Nat) (hp : peer < sockets.next)
    (kind : (sockets.states peer).isDatagram = (sockets.states id).isDatagram) : (sockets.connectTo id peer).Fits :=
  f.update rfl ((f id).connectedTo hp kind)

theorem Fits.socketpair {sockType : Nat} (f : sockets.Fits) (nonblock : Bool)
    (kind : sockType ∈ [SOCK_STREAM, SOCK_DGRAM, SOCK_SEQPACKET]) : (sockets.socketpair sockType nonblock).Fits := by
  have created := (f.create fun _ _ => fits_new nonblock kind).create fun _ _ => fits_new nonblock kind
  have left := created.connectTo sockets.next (sockets.next + 1) (Nat.lt_succ_self _)
    (by simp [create_states])
  exact left.connectTo (sockets.next + 1) sockets.next (Nat.lt_succ_of_lt (Nat.lt_succ_self _))
    (by simp [Sockets.connectTo, create_states, update_states, SocketState.connectedTo, isDatagram])

theorem Fits.request {client listener : Nat} (f : sockets.Fits) (hc : client < sockets.next)
    (hl : listener < sockets.next) (hd : ¬(sockets.states client).isDatagram)
    (hs : (sockets.states listener).listening) : (sockets.request client listener).Fits := by
  have created : (sockets.create ((SocketState.new SOCK_STREAM false).connectedTo client)).Fits := by
    apply f.create
    intro states old
    apply (fits_new false (by simp)).connectedTo (Nat.lt_succ_of_lt hc)
    rw [old client hc]
    exact Bool.eq_false_iff.mpr hd
  have fits := created listener
  rw [create_states, if_neg hl.ne] at fits
  apply created.update
  case kind => rw [create_states, if_neg hl.ne]; rfl
  case fits => exact { __ := fits, pending := fun _ => hs }

theorem Fits.shutdown (f : sockets.Fits) (closeRead closeWrite : Bool) :
    (sockets.shutdown id closeRead closeWrite).Fits := by
  have closed : (sockets.update id { sockets.states id with
      shutdownRead := (sockets.states id).shutdownRead || closeRead
      shutdownWrite := (sockets.states id).shutdownWrite || closeWrite }).Fits := f.update rfl { __ := f id }
  simp only [Sockets.shutdown]
  split
  case h_1        => exact closed
  case h_2 peer _ => exact closed.update rfl { __ := closed peer }

theorem Fits.drop (f : sockets.Fits) : (sockets.drop id).Fits := by
  have dead : Fits { sockets with alive := Function.update sockets.alive id false } := f
  simp only [Sockets.drop]
  split
  case h_1 => exact dead
  case h_2 peer _ => exact dead.update rfl { __ := f peer }

theorem Fits.step {sockets' : Sockets} (f : sockets.Fits) (h : Step sockets sockets') : sockets'.Fits := by
  cases h
  case socket nonblock kind => exact f.create fun _ _ => fits_new nonblock kind
  case socketpair nonblock kind => exact f.socketpair nonblock kind
  case listen id socket hi hs =>
    have ⟨fits, same⟩ := (f id).listen hs
    exact f.update same fits
  case connectDatagram id hi hd => exact f.update rfl { __ := f id }
  case request client listener hc hl hd hs => exact f.request hc hl hd hs
  case finishConnect client accepted hc ha hd hs =>
    apply f.connectTo client accepted ha
    rw [Bool.eq_false_iff.mpr hd, Bool.eq_false_iff.mpr (not_isDatagram_of_isStream hs)]
  case accept id hi => exact f.update isDatagram_accept (f id).accept
  case setNonblock id nonblock hi => exact f.update rfl { __ := f id }
  case read id len hi => exact f.update isDatagram_read ((f id).read sockets len)
  case push id packet hi => exact f.update isDatagram_push ((f id).push packet)
  case send sender id packet hs hp =>
    have hd := (f sender).not_isDatagram.mpr hs
    rw [← ((f sender).peer id hp).right] at hd
    exact f.update isDatagram_send ((f id).send packet hd)
  case sendDatagram id packet hi hd =>
    exact f.update rfl { __ := f id, stream := fun hs => absurd hd (not_isDatagram_of_isStream hs) }
  case shutdown id closeRead closeWrite hi => exact f.shutdown closeRead closeWrite
  case drop id hi => exact f.drop

theorem Reachable.fits (h : sockets.Reachable) : sockets.Fits := by
  induction h
  case init => exact fits_init
  case step hs ih => exact ih.step hs

end Sockets

namespace FileDescriptor

@[simp]
theorem again_ok {α : Type} {value : α} : again (.ok value : Except SysErrNo α) = false :=
  rfl

@[simp]
theorem again_error {α : Type} {err : SysErrNo} : again (.error err : Except SysErrNo α) ↔ err = .EAGAIN := by
  cases err <;> simp [again]

end FileDescriptor

open WllOs.Fs.FileDescriptor

theorem PipeState.again_read {pipe : PipeState} {len : Nat} :
    again (pipe.read len).fst ↔ len ≠ 0 ∧ pipe.buf = [] ∧ pipe.writers ≠ 0 := by
  simp only [PipeState.read]
  split
  case isTrue h => simp [h]
  case isFalse h =>
    split
    case isTrue hb => split <;> simp_all
    case isFalse hb => simp_all

theorem PipeState.again_write {pipe : PipeState} {buf : List UInt8} :
    again (pipe.write buf).fst ↔ buf ≠ [] ∧ pipe.readers ≠ 0 ∧ PIPE_CAPACITY ≤ pipe.buf.length := by
  simp only [PipeState.write]
  split
  case isTrue h => simp_all
  case isFalse h =>
    split
    case isTrue hr => simp [hr]
    case isFalse hr =>
      split
      case isTrue ha  => simp_all [Nat.sub_eq_zero_iff_le]
      case isFalse ha => simp_all [Nat.sub_eq_zero_iff_le]

theorem EventFdState.again_read {eventFd : EventFdState} {len : Nat} :
    again (eventFd.read len).fst ↔ 8 ≤ len ∧ eventFd.counter = 0 := by
  simp only [EventFdState.read]
  split
  case isTrue h => simp [h]
  case isFalse h =>
    split
    case isTrue hc  => simp_all
    case isFalse hc => split <;> simp [hc]

theorem EventFdState.again_write {eventFd : EventFdState} {buf : List UInt8} :
    again (eventFd.write buf).fst ↔ 8 ≤ buf.length ∧ fromLeBytes (buf.take 8) ≠ COUNTER_MAX ∧
      COUNTER_MAX - 1 - eventFd.counter < fromLeBytes (buf.take 8) := by
  simp only [EventFdState.write]
  split
  case isTrue h => simp [h]
  case isFalse h =>
    split
    case isTrue hv => simp [hv]
    case isFalse hv =>
      split
      case isTrue ha  => simp_all
      case isFalse ha => simp_all

theorem SocketState.again_accept {socket : SocketState} :
    again socket.accept.fst ↔ socket.isStream ∧ socket.listening ∧ socket.pending = [] := by
  simp only [SocketState.accept]
  split
  case isTrue h => simp_all
  case isFalse h =>
    split
    case isTrue hl => simp_all
    case isFalse hl => split <;> simp_all

theorem SocketState.again_read {socket : SocketState} {sockets : Sockets} {len : Nat} (hl : len ≠ 0) :
    again (socket.read sockets len).fst ↔ socket.shutdownRead = false ∧
      (socket.isConnectionOriented → socket.connected) ∧ socket.receiveEof sockets = false ∧
      if socket.isMessageOriented then socket.dgramQueue = [] else socket.rxBuf = [] := by
  simp only [SocketState.read, hl, if_false]
  split
  case isTrue h => simp [h]
  case isFalse h =>
    split
    case isTrue hc => simp_all
    case isFalse hc =>
      split
      case isTrue hm =>
        split
        case h_1 => simp_all
        case h_2 => simp_all; split <;> simp_all
      case isFalse hm =>
        split
        case isTrue  => simp_all; split <;> simp_all
        case isFalse => simp_all

-- A write to a socket never waits for its peer.
theorem Sockets.not_again_write {sockets : Sockets} {id : Nat} {buf : List UInt8} :
    ¬again (sockets.write id buf).fst := by
  simp only [Sockets.write]
  split
  case isTrue => simp
  case isFalse =>
    split
    case h_1 err h =>
      simp only [SocketState.writePeer, Option.elim] at h
      repeat' split at h
      all_goals cases h <;> simp
    case h_2 => split <;> simp

namespace FileDescriptor

variable {δ : Type} {volume : Volume δ} {objects : Objects δ} {file : FileDescriptor} {len : Nat}

theorem not_again_readMemFile {memFile' : MemFile} : ¬again (readMemFile objects memFile' len).fst := by
  simp only [readMemFile]
  repeat' split
  all_goals simp

theorem not_again_readExt4Regular {regular : Ext4Regular} (v : volume.NeverAgain) :
    ¬again (readExt4Regular volume objects regular len).fst := by
  simp only [readExt4Regular]
  split
  case isTrue => simp
  case isFalse =>
    split
    case h_1 err h =>
      rintro again
      exact v.readAt _ _ _ _ (h.trans (congrArg _ (again_error.mp again)))
    case h_2 => simp

theorem not_again_readLoopDevice {device : LoopDevice} (v : volume.NeverAgain) :
    ¬again (readLoopDevice volume objects device len).fst := by
  simp only [readLoopDevice]
  split
  case isTrue => simp
  case isFalse =>
    split
    case h_1 err h =>
      rintro again
      exact v.loopReadAt _ _ _ _ (h.trans (congrArg _ (again_error.mp again)))
    case h_2 => simp

theorem checkedFileEnd_error {offset : Nat} {err : SysErrNo} (h : checkedFileEnd offset len = .error err) :
    err = .EFBIG := by
  simp only [checkedFileEnd] at h
  repeat' split at h
  all_goals cases h <;> rfl

theorem not_again_writeMemFile {memFile' : MemFile} {buf : List UInt8} :
    ¬again (writeMemFile objects memFile' buf).fst := by
  simp only [writeMemFile]
  split
  case isTrue => simp
  case isFalse =>
    split
    case isTrue => simp
    case isFalse =>
      split
      case isTrue => simp
      case isFalse =>
        split
        case h_1 h => simp [checkedFileEnd_error h]
        case h_2   => simp

theorem not_again_writeExt4Regular {regular : Ext4Regular} {buf : List UInt8} (v : volume.NeverAgain) :
    ¬again (writeExt4Regular volume objects regular buf).fst := by
  simp only [writeExt4Regular]
  split
  case isTrue => simp
  case isFalse =>
    split
    case h_1 err h =>
      rw [again_error]
      rintro rfl
      split at h
      case isTrue  => exact v.fileSize _ _ h
      case isFalse => cases h
    case h_2 =>
      split
      case h_1 h => simp [checkedFileEnd_error h]
      case h_2 =>
        split
        case h_1 err h =>
          rw [again_error]
          rintro rfl
          exact v.writeAt _ _ _ _ h
        case h_2 => simp

theorem not_again_writeLoopDevice {device : LoopDevice} {buf : List UInt8} (v : volume.NeverAgain) :
    ¬again (writeLoopDevice volume objects device buf).fst := by
  simp only [writeLoopDevice]
  split
  case isTrue => simp
  case isFalse =>
    split
    case isTrue => simp
    case isFalse =>
      split
      case h_1 h => simp [checkedFileEnd_error h]
      case h_2 =>
        split
        case h_1 err h =>
          rw [again_error]
          rintro rfl
          exact v.loopWriteAt _ _ _ _ h
        case h_2 => simp

theorem pollReadReady_pipeRead {pipe : PipeEnd} :
    (pipeRead pipe).pollReadReady objects ↔
      ¬((objects.pipes pipe.state).buf = [] ∧ (objects.pipes pipe.state).writers ≠ 0) := by
  simp only [pollReadReady, Bool.or_eq_true, Bool.not_eq_true', List.isEmpty_eq_false_iff, decide_eq_true_eq]
  tauto

theorem pollReadReady_socket {state : Nat} :
    (socket state).pollReadReady objects ↔ (objects.sockets.states state).shutdownRead ∨
      (objects.sockets.states state).rxBuf ≠ [] ∨ (objects.sockets.states state).dgramQueue ≠ [] ∨
      (objects.sockets.states state).pending ≠ [] ∨
      (objects.sockets.states state).receiveEof objects.sockets := by
  simp [pollReadReady, SocketState.receiveEof, or_assoc]

theorem socket_accept_agrees {state : Nat} (f : objects.sockets.Fits)
    (hl : (objects.sockets.states state).listening) (h : (socket state).admitsReading objects) :
    (socket state).pollReadReady objects ↔ ¬again (objects.sockets.states state).accept.fst := by
  have stream := (f state).listening hl
  have dgram := (f state).stream stream
  simp only [admitsReading, hl, if_true, Bool.and_eq_true, Bool.not_eq_true', List.isEmpty_iff] at h
  have ⟨⟨hs, hc⟩, hr⟩ := h
  rw [pollReadReady_socket, SocketState.again_accept]
  simp [hs, hr, dgram, stream, hl, SocketState.receiveEof, hc]

theorem socket_read_agrees {state : Nat} (f : objects.sockets.Fits)
    (hl : ¬(objects.sockets.states state).listening) (h : (socket state).admitsReading objects) (hn : len ≠ 0) :
    (socket state).pollReadReady objects ↔
      ¬again ((objects.sockets.states state).read objects.sockets len).fst := by
  have pending : (objects.sockets.states state).pending = [] := not_imp_comm.mp (f state).pending hl
  rw [pollReadReady_socket, SocketState.again_read hn]
  simp only [admitsReading, hl, Bool.or_eq_true, Bool.not_eq_true', Bool.false_eq_true, if_false] at h
  have connects : ¬(objects.sockets.states state).shutdownRead →
      (objects.sockets.states state).isConnectionOriented → (objects.sockets.states state).connected := by
    intro hs hc
    simpa [hs, hc] using h
  by_cases hm : (objects.sockets.states state).isMessageOriented
  case pos =>
    have rx := (f state).message hm
    simp only [pending, rx, hm, if_true, ne_eq, not_true_eq_false, false_or, ← Bool.not_eq_true]
    tauto
  case neg =>
    have stream := (f state).stream_of_not_message hm
    have dgram := (f state).stream stream
    simp only [pending, dgram, hm, ne_eq, not_true_eq_false, false_or, ← Bool.not_eq_true]
    tauto

theorem read_agrees (v : volume.NeverAgain) (f : objects.sockets.Fits) (h : file.admitsReading objects)
    (hl : len ≥ 8) : file.pollReadReady objects ↔ ¬file.readAgain volume objects len := by
  cases file
  case stdin => simp [pollReadReady, readAgain, FileDescriptor.read]
  case memFile memFile' =>
    simp_all [admitsReading, pollReadReady, readAgain, FileDescriptor.read, readable, not_again_readMemFile]
  case ext4Regular regular =>
    simp_all [admitsReading, pollReadReady, readAgain, FileDescriptor.read, readable, not_again_readExt4Regular v]
  case loopDevice device =>
    simp_all [admitsReading, pollReadReady, readAgain, FileDescriptor.read, readable, not_again_readLoopDevice v]
  case pipeRead pipe =>
    have hn : len ≠ 0 := by omega
    rw [pollReadReady_pipeRead]
    simp only [readAgain, FileDescriptor.read, PipeState.again_read, ne_eq, hn, not_false_eq_true, true_and]
  case eventFd state =>
    simp only [pollReadReady, readAgain, FileDescriptor.read, EventFdState.again_read, hl, true_and, decide_eq_true_eq,
      ne_eq]
  case socket state =>
    simp only [readAgain]
    split
    case isTrue hs  => exact socket_accept_agrees f hs h
    case isFalse hs => exact socket_read_agrees f hs h (by omega)
  all_goals simp [admitsReading, readable] at h

theorem read_refused (h : ¬file.admitsReading objects) (hs : ¬file.listens objects) (hl : len ≥ 8) :
    ∃ err ≠ SysErrNo.EAGAIN, (file.read volume objects len).result = .error err := by
  cases file
  case memFile memFile' => simp_all [admitsReading, readable, FileDescriptor.read, readMemFile]
  case ext4Regular regular => simp_all [admitsReading, readable, FileDescriptor.read, readExt4Regular]
  case loopDevice device => simp_all [admitsReading, readable, FileDescriptor.read, readLoopDevice]
  case socket state =>
    have hn : len ≠ 0 := by omega
    simp_all [admitsReading, listens, FileDescriptor.read, SocketState.read]
  case stdin | pipeRead | eventFd => simp [admitsReading, readable] at h
  all_goals simp [FileDescriptor.read]

theorem accept_ready (f : objects.sockets.Fits) (hs : file.listens objects)
    (h : ¬file.readAgain volume objects len) : file.pollReadReady objects := by
  cases file
  case socket state =>
    rw [listens] at hs
    simp only [readAgain, hs, if_true, SocketState.again_accept, (f state).listening hs, true_and] at h
    exact pollReadReady_socket.mpr (.inr (.inr (.inr (.inl h))))
  all_goals simp [listens] at hs

variable {writer : Nat} {buf : List UInt8}

theorem not_again_write (v : volume.NeverAgain) (hp : ∀ pipe, file ≠ pipeWrite pipe)
    (he : ∀ state, file ≠ eventFd state) : ¬file.writeAgain volume objects writer buf := by
  cases file
  case memFile => exact not_again_writeMemFile
  case ext4Regular => exact not_again_writeExt4Regular v
  case loopDevice => exact not_again_writeLoopDevice v
  case pipeWrite pipe => exact absurd rfl (hp pipe)
  case eventFd state => exact absurd rfl (he state)
  case socket => exact Sockets.not_again_write
  all_goals simp [writeAgain, FileDescriptor.write]

theorem pollWriteReady_pipeWrite {pipe : PipeEnd} :
    (pipeWrite pipe).pollWriteReady objects ∨ (pipeWrite pipe).pollError objects ↔
      ¬((objects.pipes pipe.state).readers ≠ 0 ∧ PIPE_CAPACITY ≤ (objects.pipes pipe.state).buf.length) := by
  simp only [pollWriteReady, pollError, Bool.and_eq_true, decide_eq_true_eq]
  omega

-- An eventfd takes a positive number as long as it takes 1.
theorem write_agrees_eventFd {state : Nat} :
    (eventFd state).pollWriteReady objects ∨ (eventFd state).pollError objects ↔
      ∃ buf, (eventFd state).Asks buf ∧ ¬(eventFd state).writeAgain volume objects writer buf := by
  simp only [pollWriteReady, pollError, writeAgain, FileDescriptor.write, EventFdState.again_write, decide_eq_true_eq,
    Bool.false_eq_true, or_false, Asks]
  constructor
  case mp =>
    intro h
    have one : fromLeBytes ((leBytes 8 1).take 8) = 1 := by decide
    have big : 1 < EventFdState.COUNTER_MAX := by decide
    exists leBytes 8 1
    rw [one]
    exact ⟨⟨by decide, Nat.one_pos, big⟩, by omega⟩
  case mpr =>
    rintro ⟨buf, ⟨hl, hp, hm⟩, hn⟩
    have fits := not_and.mp (not_and.mp hn hl) hm.ne
    omega

theorem write_agrees_socket {state : Nat} (f : objects.sockets.Fits) (h : (socket state).admitsWriting objects) :
    (socket state).pollWriteReady objects := by
  simp only [admitsWriting, Bool.and_eq_true, Bool.or_eq_true, Bool.not_eq_true'] at h
  have ⟨⟨hs, hc⟩, hp⟩ := h
  have kind := (f state).not_isDatagram
  simp only [pollWriteReady, hs, hc, (f state).error, Bool.and_eq_true, Bool.or_eq_true, Bool.not_eq_true',
    decide_eq_true_eq, and_true, Bool.not_false]
  cases hp
  case inl hn =>
    exact ⟨.inr (not_not.mp (kind.not.mpr (Bool.eq_false_iff.mp hn))), .inl hn⟩
  case inr hl => exact ⟨.inl hl.left, .inr hl.right⟩

theorem write_agrees (v : volume.NeverAgain) (f : objects.sockets.Fits) (h : file.admitsWriting objects) :
    file.pollWriteReady objects ∨ file.pollError objects ↔
      ∃ buf, file.Asks buf ∧ ¬file.writeAgain volume objects writer buf := by
  cases file
  case eventFd state => exact write_agrees_eventFd
  case pipeWrite pipe =>
    rw [pollWriteReady_pipeWrite]
    simp only [writeAgain, FileDescriptor.write, PipeState.again_write, Asks]
    constructor
    case mp  => exact fun hp => ⟨[0], by simp, fun ha => hp ha.right⟩
    case mpr => exact fun ⟨_, hb, ha⟩ hp => ha ⟨hb, hp⟩
  case socket state =>
    refine iff_of_true (.inl (write_agrees_socket f h)) ⟨[0], ?_, ?_⟩
    case refine_1 => simp [Asks]
    case refine_2 => exact not_again_write v nofun nofun
  case stdout | stderr =>
    refine iff_of_true (.inl rfl) ⟨[0], ?_, ?_⟩
    case refine_1 => simp [Asks]
    case refine_2 => exact not_again_write v nofun nofun
  case memFile | ext4Regular | loopDevice =>
    refine iff_of_true (.inl ?_) ⟨[0], ?_, ?_⟩
    case refine_1 => simpa [admitsWriting, writable, pollWriteReady] using h
    case refine_2 => simp [Asks]
    case refine_3 => exact not_again_write v nofun nofun
  all_goals simp [admitsWriting, writable] at h

theorem writePeer_refused {state : Nat} (h : ¬(socket state).admitsWriting objects) :
    ∃ err ≠ SysErrNo.EAGAIN, (objects.sockets.states state).writePeer objects.sockets = .error err := by
  simp only [SocketState.writePeer]
  split
  case isTrue => exact ⟨.EPIPE, nofun, rfl⟩
  case isFalse hs =>
    split
    case isTrue => exact ⟨.ENOTCONN, nofun, rfl⟩
    case isFalse hc =>
      split
      case isTrue => exact ⟨.EPIPE, nofun, rfl⟩
      case isFalse hr =>
        simp_all [admitsWriting]

theorem write_refused_socket {state : Nat} (h : ¬(socket state).admitsWriting objects) (hb : buf ≠ []) :
    ∃ err ≠ SysErrNo.EAGAIN, (objects.sockets.write state buf).fst = .error err := by
  have ⟨err, he, hw⟩ := writePeer_refused h
  exact ⟨err, he, by simp [Sockets.write, hw, hb]⟩

theorem write_refused (h : ¬file.admitsWriting objects) (hb : buf ≠ []) :
    ∃ err ≠ SysErrNo.EAGAIN, (file.write volume objects writer buf).result = .error err := by
  cases file
  case memFile memFile' => simp_all [admitsWriting, writable, FileDescriptor.write, writeMemFile]
  case ext4Regular regular => simp_all [admitsWriting, writable, FileDescriptor.write, writeExt4Regular]
  case loopDevice device => simp_all [admitsWriting, writable, FileDescriptor.write, writeLoopDevice]
  case socket state => exact write_refused_socket h hb
  case stdout | stderr | pipeWrite | eventFd => simp [admitsWriting, writable] at h
  all_goals simp [FileDescriptor.write]

theorem pipeRead_blocks (h : file.pipeReadWouldBlock objects) (hl : len > 0) :
    file.readAgain volume objects len := by
  cases file
  case pipeRead pipe =>
    simp only [pipeReadWouldBlock, Bool.and_eq_true, List.isEmpty_iff, decide_eq_true_eq] at h
    exact PipeState.again_read.mpr ⟨hl.ne', h.left, h.right.ne'⟩
  all_goals cases h

theorem pipeWrite_blocks (h : file.pipeWriteWouldBlock objects) (hb : buf ≠ []) :
    file.writeAgain volume objects writer buf := by
  cases file
  case pipeWrite pipe =>
    simp only [pipeWriteWouldBlock, Bool.and_eq_true, decide_eq_true_eq] at h
    exact PipeState.again_write.mpr ⟨hb, h.left.ne', h.right⟩
  all_goals cases h

theorem eventFdRead_blocks (h : file.eventFdReadWouldBlock objects) (hl : len ≥ 8) :
    file.readAgain volume objects len := by
  cases file
  case eventFd state =>
    simp only [eventFdReadWouldBlock, decide_eq_true_eq] at h
    exact EventFdState.again_read.mpr ⟨hl, h⟩
  all_goals cases h

theorem socketRead_blocks (f : objects.sockets.Fits) (h : file.socketReadWouldBlock objects)
    (hr : file.readerWaits objects) (hl : len > 0) : again (file.read volume objects len).result := by
  cases file
  case socket state =>
    apply (SocketState.again_read hl.ne').mpr
    have kind := (f state).not_isDatagram
    simp only [socketReadWouldBlock] at h
    split at h
    case isTrue => cases h
    case isFalse hs =>
      split at h
      case isTrue hm =>
        simp only [Bool.and_eq_true, List.isEmpty_iff, Bool.not_eq_true'] at h
        refine ⟨Bool.eq_false_iff.mpr hs, fun hc => ?_, h.right, by rw [if_pos hm]; exact h.left⟩
        have seqpacket := (SocketState.isSeqpacket_of hm) (kind.mpr hc)
        simpa [readerWaits, seqpacket] using hr
      case isFalse hm =>
        simp only [Bool.and_eq_true, List.isEmpty_iff, Bool.not_eq_true'] at h
        exact ⟨Bool.eq_false_iff.mpr hs, fun _ => h.left.left, h.right, by rw [if_neg hm]; exact h.left.right⟩
  all_goals cases h

end FileDescriptor

theorem Volume.empty_neverAgain : Volume.empty.NeverAgain where
  readAt      := nofun
  writeAt     := nofun
  fileSize    := nofun
  loopReadAt  := nofun
  loopWriteAt := nofun

end WllOs.Fs
