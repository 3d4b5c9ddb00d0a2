import WllOs.Fs.Objects

namespace WllOs.Fs

theorem fromLeBytes_lt (bytes : List UInt8) : fromLeBytes bytes < 256 ^ bytes.length := by
  induction bytes
  case nil => simp [fromLeBytes]
  case cons byte bytes hi =>
    have := byte.toNat_lt
    simp only [fromLeBytes, List.length_cons, pow_succ]
    omega

theorem length_leBytes {width value : Nat} : (leBytes width value).length = width := by
  simp [leBytes]

theorem leBytes_succ (width value : Nat) :
    leBytes (width + 1) value = UInt8.ofNat value :: leBytes width (value / 256) := by
  simp only [leBytes, List.range_succ_eq_map, List.map_cons, List.map_map, pow_zero, Nat.div_one]
  refine congrArg _ (List.map_congr_left fun i _ => ?_)
  simp only [Function.comp, Nat.succ_eq_add_one, pow_succ', Nat.div_div_eq_div_mul]

theorem fromLeBytes_leBytes (width value : Nat) : fromLeBytes (leBytes width value) = value % 256 ^ width := by
  induction width generalizing value
  case zero => simp [leBytes, fromLeBytes, Nat.mod_one]
  case succ width hi =>
    rw [leBytes_succ, fromLeBytes, hi, pow_succ', Nat.mod_mul]
    simp

namespace PipeState

variable {pipe : PipeState} {buf : List UInt8} {len n available : Nat}

-- What reading and writing leave as it is.
def SameEnds (pipe pipe' : PipeState) : Prop :=
  pipe'.readers = pipe.readers ∧ pipe'.writers = pipe.writers

theorem popFront_eq (pipe : PipeState) (h : n ≤ pipe.buf.length) : (pipe.popFront n).fst = pipe.buf.take n ∧
    (pipe.popFront n).snd.buf = pipe.buf.drop n ∧ pipe.SameEnds (pipe.popFront n).snd := by
  induction n generalizing pipe
  case zero => exact ⟨rfl, rfl, rfl, rfl⟩
  case succ n hi =>
    have ht : n ≤ pipe.buf.tail.length := by simp; omega
    have ⟨hb, hd, hs⟩ := hi { pipe with buf := pipe.buf.tail, head := (pipe.head + 1) % PIPE_CAPACITY } ht
    simp only [popFront, hb, hd]
    refine ⟨?_, List.drop_tail, hs⟩
    cases hp : pipe.buf
    case nil => simp [hp] at h
    case cons => rfl

-- The bytes that are taken off the ring are in its two parts.
theorem take_slices (l : List UInt8) (k n : Nat) :
    (l.take k).take (min n (l.take k).length) ++ (l.drop k).take (n - min n (l.take k).length) = l.take n := by
  conv => rhs; rw [← List.take_append_drop k l, List.take_append]
  rcases Nat.le_total n (l.take k).length with h | h
  case inl => rw [Nat.min_eq_left h, Nat.sub_self, Nat.sub_eq_zero_of_le h]
  case inr => rw [Nat.min_eq_right h, List.take_length, List.take_of_length_le h]

theorem pipeReadBuffer_eq (pipe : PipeState) (len : Nat) : (pipe.pipeReadBuffer len).fst = pipe.buf.take len ∧
    (pipe.pipeReadBuffer len).snd.buf = pipe.buf.drop len ∧ pipe.SameEnds (pipe.pipeReadBuffer len).snd := by
  have ht : pipe.buf.take (min len pipe.buf.length) = pipe.buf.take len := List.take_eq_take_min.symm
  have hd : pipe.buf.drop (min len pipe.buf.length) = pipe.buf.drop len := by
    rcases Nat.le_total len pipe.buf.length with h | h
    case inl => rw [Nat.min_eq_left h]
    case inr => rw [Nat.min_eq_right h, List.drop_length, List.drop_eq_nil_of_le h]
  simp only [pipeReadBuffer]
  split
  case isTrue =>
    have ⟨hb, hb', hs⟩ := popFront_eq pipe (Nat.min_le_right len pipe.buf.length)
    exact ⟨hb.trans ht, hb'.trans hd, hs⟩
  case isFalse =>
    refine ⟨?_, hd, rfl, rfl⟩
    simp only [asSlices, List.splitAt_eq]
    rw [take_slices, ht]

theorem foldl_pushBack (bytes : List UInt8) (pipe : PipeState) :
    bytes.foldl (fun pipe byte => { pipe with buf := pipe.buf ++ [byte] }) pipe =
      { pipe with buf := pipe.buf ++ bytes } := by
  induction bytes generalizing pipe
  case nil => simp
  case cons byte bytes hi => simp [hi]

-- Both ways of copying append the bytes that there is room for.
theorem pipeWriteBuffer_eq (pipe : PipeState) (buf : List UInt8) (available : Nat) :
    pipe.pipeWriteBuffer buf available =
      (min buf.length available, { pipe with buf := pipe.buf ++ buf.take (min buf.length available) }) := by
  simp only [pipeWriteBuffer]
  split
  case isTrue  => rw [foldl_pushBack]
  case isFalse => rfl

theorem read_error {err : SysErrNo} (h : (pipe.read len).fst = .error err) :
    (pipe.read len).snd.fst = pipe := by
  revert h
  simp only [PipeState.read]
  repeat' split
  all_goals first | exact fun _ => rfl | exact nofun

theorem read_ok {bytes : List UInt8} (h : (pipe.read len).fst = .ok bytes) :
    bytes = pipe.buf.take len ∧ (pipe.read len).snd.fst.buf = pipe.buf.drop len ∧
      pipe.SameEnds (pipe.read len).snd.fst := by
  revert h
  simp only [PipeState.read]
  split
  case isTrue hl => rintro ⟨⟩; simp [hl, SameEnds]
  case isFalse =>
    split
    case isTrue hb =>
      rw [List.isEmpty_iff] at hb
      split
      case isTrue  => rintro ⟨⟩; simp [hb, SameEnds]
      case isFalse => exact nofun
    case isFalse =>
      have ⟨hb, hd, hs⟩ := pipeReadBuffer_eq pipe len
      rintro ⟨⟩
      exact ⟨hb, hd, hs⟩

end PipeState

theorem EventFdState.read_ok {eventFd : EventFdState} {len : Nat} {bytes : List UInt8}
    (h : (eventFd.read len).fst = .ok bytes) :
    bytes.length = 8 ∧ 8 ≤ len ∧ (eventFd.read len).snd.fst.counter ≠ eventFd.counter := by
  revert h
  simp only [EventFdState.read]
  split
  case isTrue => exact nofun
  case isFalse hl =>
    split
    case isTrue => exact nofun
    case isFalse hc =>
      split
      case isTrue =>
        rintro ⟨⟩
        refine ⟨length_leBytes, Nat.not_lt.mp hl, ?_⟩
        simp only
        omega
      case isFalse =>
        rintro ⟨⟩
        exact ⟨length_leBytes, Nat.not_lt.mp hl, fun he => hc he.symm⟩

theorem EventFdState.read_error {eventFd : EventFdState} {len : Nat} {err : SysErrNo}
    (h : (eventFd.read len).fst = .error err) : (eventFd.read len).snd.fst = eventFd := by
  revert h
  simp only [EventFdState.read]
  repeat' split
  all_goals first | exact fun _ => rfl | exact nofun

theorem SocketState.length_read {socket : SocketState} {sockets : Sockets} {len : Nat} {bytes : List UInt8}
    (h : (socket.read sockets len).fst = .ok bytes) : bytes.length ≤ len := by
  revert h
  simp only [SocketState.read]
  repeat' split
  all_goals intro h
  all_goals cases h
  all_goals first | exact Nat.zero_le _ | exact List.length_take_le ..

theorem SocketState.read_error {socket : SocketState} {sockets : Sockets} {len : Nat} {err : SysErrNo}
    (h : (socket.read sockets len).fst = .error err) : (socket.read sockets len).snd.fst = socket := by
  revert h
  simp only [SocketState.read]
  repeat' split
  all_goals first | exact fun _ => rfl | exact nofun

@[simp]
theorem Sockets.update_self {sockets : Sockets} {id : Nat} : sockets.update id (sockets.states id) = sockets := by
  simp [Sockets.update]

end WllOs.Fs
