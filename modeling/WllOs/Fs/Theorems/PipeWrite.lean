import WllOs.Fs.PipeWrite
import WllOs.Fs.Theorems.Objects

namespace WllOs.Fs

theorem vectoredIoChunk_pos : 0 < VECTORED_IO_CHUNK := by
  simp [VECTORED_IO_CHUNK]

-- The batches of a call have bytes, and all but the last one fill a chunk.
def Chunked : List (List UInt8) → Prop
  | []               => True
  | batch :: batches => batch ≠ [] ∧ (batches = [] ∨ VECTORED_IO_CHUNK ≤ batch.length) ∧ Chunked batches

theorem iovBatches_chunked (batch : List UInt8) (iovecs : List (List UInt8)) : Chunked (iovBatches batch iovecs) := by
  induction iovecs generalizing batch
  case nil =>
    simp only [iovBatches]
    split
    case isTrue => trivial
    case isFalse h => exact ⟨by simpa using h, .inl rfl, trivial⟩
  case cons iovec iovecs hi =>
    simp only [iovBatches]
    split
    case isFalse => exact hi _
    case isTrue h =>
      have hpos : 0 < (batch ++ iovec).length := Nat.lt_of_lt_of_le vectoredIoChunk_pos h
      exact ⟨List.ne_nil_of_length_pos hpos, .inr h, hi _⟩

theorem flatten_iovBatches (batch : List UInt8) (iovecs : List (List UInt8)) :
    (iovBatches batch iovecs).flatten = batch ++ iovecs.flatten := by
  induction iovecs generalizing batch
  case nil =>
    simp only [iovBatches]
    split
    case isTrue h => simp [List.isEmpty_iff.mp h]
    case isFalse => simp
  case cons iovec iovecs hi =>
    simp only [iovBatches]
    split <;> simp [hi]

namespace PipeCall

variable {call : PipeCall} {n : Nat}

theorem batches_chunked (call : PipeCall) : Chunked call.batches := by
  cases call
  case write data =>
    simp only [batches]
    split
    case isTrue => trivial
    case isFalse h => exact ⟨by simpa using h, .inl rfl, trivial⟩
  case writev iovecs => exact iovBatches_chunked [] iovecs

theorem flatten_batches (call : PipeCall) : call.batches.flatten = call.data := by
  cases call
  case write data =>
    simp only [batches]
    split
    case isTrue h =>
      rw [List.isEmpty_iff.mp h]
      rfl
    case isFalse => exact List.append_nil data
  case writev iovecs => exact flatten_iovBatches [] iovecs

theorem sliceLen_pos (h : 0 < n) : 0 < call.sliceLen n := by
  simp only [sliceLen]
  split
  case isTrue => exact h
  case isFalse => exact Nat.lt_min.mpr ⟨h, vectoredIoChunk_pos⟩

-- A slice of bytes has bytes.
theorem take_sliceLen_ne {bytes : List UInt8} (h : bytes ≠ []) : bytes.take (call.sliceLen bytes.length) ≠ [] := by
  have hpos := List.length_pos_of_ne_nil h
  exact List.ne_nil_of_length_pos (by simpa using ⟨sliceLen_pos hpos, hpos⟩)

end PipeCall

namespace PipeWriter

variable {w w' : PipeWriter}

-- What has not been accepted yet.
def left (w : PipeWriter) : List UInt8 :=
  w.slice ++ w.rest ++ w.batches.flatten

-- The batches before have been accepted as a whole. That of the slice fills a chunk if it is not the last one.
structure Fits (w : PipeWriter) : Prop where
  data : w.origin.data = w.call.data
  done : w.done = 0 ∨ VECTORED_IO_CHUNK ≤ w.done
  batch : w.batches = [] ∨ w.done + w.total + w.slice.length + w.rest.length = 0 ∨
    VECTORED_IO_CHUNK ≤ w.total + w.slice.length + w.rest.length
  chunked : Chunked w.batches

theorem start_fits (call : PipeCall) (serial : Nat) (nonblock : Bool) : (call.start serial nonblock).Fits :=
  ⟨rfl, .inl rfl, .inr (.inl rfl), call.batches_chunked⟩

theorem start_left (call : PipeCall) (serial : Nat) (nonblock : Bool) : (call.start serial nonblock).left = call.data := by
  simp [left, PipeCall.start, call.flatten_batches]

-- The next slice of a write is the part of what is left that the kernel copies next.
structure Loads (w w' : PipeWriter) : Prop where
  origin : w'.origin = w.origin
  nonblock : w'.nonblock = w.nonblock
  left : w'.left = w.left
  count : w'.done + w'.total = w.done + w.total
  slice : w'.slice ≠ []
  fits : w'.Fits

theorem load_eq_some (hw : w.Fits) (hs : w.slice = []) (h : w.load = some w') : Loads w w' := by
  simp only [load] at h
  split at h
  case h_1 => cases h
  case h_2 batch batches hr hb =>
    cases h
    have hc := hw.chunked
    rw [hb] at hc
    have hdone : w.done + w.total = 0 ∨ VECTORED_IO_CHUNK ≤ w.done + w.total := by
      obtain hn | hz | hf := hw.batch
      case inl => simp [hb] at hn
      case inr.inl => exact .inl (by omega)
      case inr.inr =>
        simp only [hs, hr, List.length_nil] at hf
        exact .inr (by omega)
    refine ⟨rfl, rfl, ?_, rfl, PipeCall.take_sliceLen_ne hc.1, hw.data, hdone, ?_, hc.2.2⟩
    case refine_1 => simp [left, hs, hr, hb]
    case refine_2 => exact hc.2.1.imp_right fun h => .inr (by simp; omega)
  case h_3 hnone hsome =>
    cases h
    have hne : w.rest ≠ [] := by
      intro hr
      cases hb : w.batches
      case nil => exact hnone hr hb
      case cons => exact hsome _ _ hr hb
    have hlen : (w.rest.take (w.call.sliceLen w.rest.length)).length +
        (w.rest.drop (w.call.sliceLen w.rest.length)).length = w.rest.length := by
      rw [← List.length_append, List.take_append_drop]
    refine ⟨rfl, rfl, ?_, rfl, PipeCall.take_sliceLen_ne hne, hw.data, hw.done, ?_, hw.chunked⟩
    case refine_1 => simp [left, hs]
    case refine_2 =>
      have hbatch := hw.batch
      simp only [hs, List.length_nil, Nat.add_zero] at hbatch
      obtain hn | hz | hf := hbatch
      case inl => exact .inl hn
      case inr.inl => exact absurd (List.length_pos_of_ne_nil hne) (by omega)
      case inr.inr => exact .inr (.inr (by simp only [Nat.add_assoc, hlen]; exact hf))

theorem load_origin (h : w.load = some w') : w'.origin = w.origin := by
  simp only [load] at h
  split at h <;> cases h <;> rfl

theorem load_eq_none (hs : w.slice = []) (h : w.load = none) : w.left = [] := by
  simp only [load] at h
  split at h
  case h_1 hr hb => simp [left, hs, hr, hb]
  all_goals cases h

end PipeWriter

namespace PipeState

variable {pipe pipe' : PipeState} {buf : List UInt8} {n : Nat} {wake : Bool} {err : SysErrNo}

-- A write is for as many bytes as there is room for.
theorem write_eq_ok (h : pipe.write buf = (.ok n, pipe', wake)) (hb : buf ≠ []) :
    pipe.readers ≠ 0 ∧ pipe.buf.length < PIPE_CAPACITY ∧ n = min buf.length (PIPE_CAPACITY - pipe.buf.length) ∧
      pipe'.buf = pipe.buf ++ buf.take n := by
  simp only [write, List.isEmpty_iff, hb, if_false, pipeWriteBuffer_eq] at h
  split at h
  case isTrue => cases h
  case isFalse hr =>
    split at h <;> cases h
    case isFalse hc => exact ⟨hr, by omega, rfl, rfl⟩

theorem write_eq_error (h : pipe.write buf = (.error err, pipe', wake)) :
    pipe.readers ≠ 0 ∧ PIPE_CAPACITY ≤ pipe.buf.length ∧ err = .EAGAIN ∨ pipe.readers = 0 ∧ err = .EPIPE := by
  simp only [write] at h
  split at h
  case isTrue => cases h
  case isFalse =>
    split at h
    case isTrue hr =>
      cases h
      exact .inr ⟨hr, rfl⟩
    case isFalse hr =>
      split at h <;> cases h
      case isTrue hc => exact .inl ⟨hr, by omega, rfl⟩

end PipeState

namespace PipeOrigin

variable {origin other : PipeOrigin} {stream : List (PipeOrigin × UInt8)} {bytes : List UInt8}

theorem accepted_append_self :
    origin.accepted (stream ++ bytes.map (origin, ·)) = origin.accepted stream ++ bytes := by
  have hfilter : (bytes.map (origin, ·)).filter (·.1 = origin) = bytes.map (origin, ·) :=
    List.filter_eq_self.mpr (by simp)
  simp [accepted, hfilter]

theorem accepted_append_ne (h : other ≠ origin) :
    origin.accepted (stream ++ bytes.map (other, ·)) = origin.accepted stream := by
  have hfilter : (bytes.map (other, ·)).filter (·.1 = origin) = [] :=
    List.filter_eq_nil_iff.mpr (by simp [h])
  simp [accepted, hfilter]

theorem accepted_eq_nil_iff : origin.accepted stream = [] ↔ ∀ byte ∈ stream, byte.1 ≠ origin := by
  simp [accepted, List.filter_eq_nil_iff]

theorem Contiguous.append_ne (h : origin.Contiguous stream) (ho : other ≠ origin) :
    origin.Contiguous (stream ++ bytes.map (other, ·)) := by
  obtain ⟨before, own, after, rfl, hown, hrest⟩ := h
  refine ⟨before, own, after ++ bytes.map (other, ·), by simp, hown, fun byte hb => ?_⟩
  rw [← List.append_assoc] at hb
  obtain hb | hb := List.mem_append.mp hb
  case inl => exact hrest byte hb
  case inr =>
    obtain ⟨_, _, rfl⟩ := List.mem_map.mp hb
    exact ho

-- The bytes of a call are the last ones in the stream.
def Last (origin : PipeOrigin) (stream : List (PipeOrigin × UInt8)) : Prop :=
  ∃ before own, stream = before ++ own ∧ (∀ byte ∈ own, byte.1 = origin) ∧ ∀ byte ∈ before, byte.1 ≠ origin

theorem last_of_nil (h : origin.accepted stream = []) : origin.Last stream :=
  ⟨stream, [], by simp, by simp, accepted_eq_nil_iff.mp h⟩

theorem Last.append (h : origin.Last stream) : origin.Last (stream ++ bytes.map (origin, ·)) := by
  obtain ⟨before, own, rfl, hown, hbefore⟩ := h
  refine ⟨before, own ++ bytes.map (origin, ·), by simp, fun byte hb => ?_, hbefore⟩
  obtain hb | hb := List.mem_append.mp hb
  case inl => exact hown byte hb
  case inr =>
    obtain ⟨_, _, rfl⟩ := List.mem_map.mp hb
    rfl

theorem Last.contiguous (h : origin.Last stream) : origin.Contiguous stream := by
  obtain ⟨before, own, rfl, hown, hbefore⟩ := h
  exact ⟨before, own, [], by simp, hown, by simpa using hbefore⟩

end PipeOrigin

namespace PipeSystem

variable {τ : Type} [DecidableEq τ] {s s' : PipeSystem τ} {t t' : τ} {act : PipeAct} {pc : PipePc} {w w' : PipeWriter}
  {stream : List (PipeOrigin × UInt8)} {serial serial' : Nat} {bytes : List UInt8} {err : Option SysErrNo}

-- A write on its way, of which what is not left has been accepted.
structure Running (stream : List (PipeOrigin × UInt8)) (serial : Nat) (w : PipeWriter) : Prop where
  fits : w.Fits
  serial : w.origin.serial < serial
  split : w.origin.accepted stream ++ w.left = w.origin.data
  count : (w.origin.accepted stream).length = w.done + w.total
  slice : w.slice ≠ []

-- A small call is a single batch.
theorem Running.done_eq (h : Running stream serial w) (hs : w.origin.Small) : w.done = 0 := by
  have hle : (w.origin.accepted stream).length ≤ w.origin.data.length := by
    rw [← h.split, List.length_append]
    exact Nat.le_add_right _ _
  have hsmall : w.origin.data.length ≤ 4096 := hs
  obtain hd | hd := h.fits.done
  case inl => exact hd
  case inr =>
    rw [h.count] at hle
    simp only [VECTORED_IO_CHUNK] at hd
    omega

structure Ended (stream : List (PipeOrigin × UInt8)) (serial : Nat) (w : PipeWriter) (err : Option SysErrNo) :
    Prop where
  serial : w.origin.serial < serial
  whole : w.nonblock → w.origin.Small → w.origin.accepted stream = [] ∨ w.origin.accepted stream = w.origin.data
  complete : ¬w.nonblock → w.result err = .ok w.origin.data.length ∨ ∃ error, err = some error ∧
    (error = .EINTR ∨ error = .EPIPE) ∧ w.result err =
      if w.origin.accepted stream = [] then .error error else .ok (w.origin.accepted stream).length

-- What a task knows of its call.
def Placed (stream : List (PipeOrigin × UInt8)) (serial : Nat) : PipePc → Prop
  | .idle           => True
  | .attempt w      => Running stream serial w ∧ (w.origin.Small → w.total ≠ 0 → w.origin.Last stream)
  | .wait w         => Running stream serial w ∧ w.total = 0
  | .asleep w       => Running stream serial w ∧ w.total = 0 ∧ ¬w.nonblock
  | .returned w err => Ended stream serial w err

-- A call that has been accepted as a whole returns its length.
theorem ended_of_whole (hn : w.origin.serial < serial) (hc : (w.origin.accepted stream).length = w.done + w.total)
    (hd : w.origin.accepted stream = w.origin.data) : Ended stream serial w none :=
  ⟨hn, fun _ _ => .inr hd, fun _ => .inl (by rw [PipeWriter.result, ← hc, hd])⟩

-- A call that ends with an error before it is promised anything, or for a reason that it may.
theorem Running.ended_error (h : Running stream serial w) {error : SysErrNo}
    (hs : w.nonblock → w.origin.Small → w.total = 0) (hb : ¬w.nonblock → error = .EINTR ∨ error = .EPIPE) :
    Ended stream serial w (some error) where
  serial := h.serial
  whole hn hsmall := by
    refine .inl (List.eq_nil_of_length_eq_zero ?_)
    rw [h.count, h.done_eq hsmall, hs hn hsmall]
  complete hn := by
    refine .inr ⟨error, rfl, hb hn, ?_⟩
    simp only [PipeWriter.result, ← h.count, ← List.length_eq_zero_iff]
    split <;> simp_all

-- A call that returns early has been promised nothing.
theorem ended_of_unpromised (hn : w.origin.serial < serial) (hp : ¬w.Promised) : Ended stream serial w err :=
  ⟨hn, fun _ hs => absurd (.inr hs) hp, fun hb => absurd (.inl hb) hp⟩

theorem Placed.next (hw : w.Fits) (hs : w.slice = []) (hn : w.origin.serial < serial)
    (hsplit : w.origin.accepted stream ++ w.left = w.origin.data)
    (hc : (w.origin.accepted stream).length = w.done + w.total) (hl : w.origin.Small → w.origin.Last stream) :
    Placed stream serial (.next w) := by
  simp only [PipePc.next]
  split
  case h_1 w' hload =>
    have hloads := PipeWriter.load_eq_some hw hs hload
    have ho := hloads.origin
    refine ⟨⟨hloads.fits, ho ▸ hn, ?_, ?_, hloads.slice⟩, fun hsmall _ => ho ▸ hl (ho ▸ hsmall)⟩
    case refine_1 => rw [ho, hloads.left, hsplit]
    case refine_2 => rw [ho, hloads.count, hc]
  case h_2 hload =>
    rw [PipeWriter.load_eq_none hs hload, List.append_nil] at hsplit
    exact ended_of_whole hn hc hsplit

-- A call of another origin knows of the same bytes as before.
theorem Placed.append {other : PipeOrigin} (h : Placed stream serial pc)
    (ho : ∀ w, pc.writer = some w → other ≠ w.origin)
    (halone : ∀ w, pc = .attempt w → w.origin.Small → w.total = 0) :
    Placed (stream ++ bytes.map (other, ·)) serial pc := by
  have hrunning {w : PipeWriter} (hw : other ≠ w.origin) (h : Running stream serial w) :
      Running (stream ++ bytes.map (other, ·)) serial w := by
    have heq : w.origin.accepted (stream ++ bytes.map (other, ·)) = w.origin.accepted stream :=
      PipeOrigin.accepted_append_ne hw
    exact ⟨h.fits, h.serial, heq ▸ h.split, heq ▸ h.count, h.slice⟩
  cases pc
  case idle => trivial
  case attempt w => exact ⟨hrunning (ho w rfl) h.1, fun hs ht => absurd (halone w rfl hs) ht⟩
  case wait w => exact ⟨hrunning (ho w rfl) h.1, h.2⟩
  case asleep w => exact ⟨hrunning (ho w rfl) h.1, h.2⟩
  case returned w err =>
    have heq : w.origin.accepted (stream ++ bytes.map (other, ·)) = w.origin.accepted stream :=
      PipeOrigin.accepted_append_ne (ho w rfl)
    exact ⟨h.serial, heq ▸ h.whole, heq ▸ h.complete⟩

theorem Placed.mono (h : Placed stream serial pc) (hle : serial ≤ serial') : Placed stream serial' pc := by
  have hrunning {w : PipeWriter} (h : Running stream serial w) : Running stream serial' w :=
    ⟨h.fits, Nat.lt_of_lt_of_le h.serial hle, h.split, h.count, h.slice⟩
  cases pc
  case idle => trivial
  case attempt w => exact ⟨hrunning h.1, h.2⟩
  case wait w => exact ⟨hrunning h.1, h.2⟩
  case asleep w => exact ⟨hrunning h.1, h.2⟩
  case returned w err => exact ⟨Nat.lt_of_lt_of_le h.serial hle, h.whole, h.complete⟩

theorem Placed.serial_lt (h : Placed stream serial pc) (hw : pc.writer = some w) : w.origin.serial < serial := by
  cases pc <;> cases hw
  case attempt => exact h.1.serial
  case wait => exact h.1.serial
  case asleep => exact h.1.serial
  case returned => exact h.serial

structure Inv (s : PipeSystem τ) : Prop where
  placed : ∀ t, Placed s.stream s.serial (s.pc t)
  distinct : ∀ t t' w w', t ≠ t' → (s.pc t).writer = some w → (s.pc t').writer = some w' →
    w.origin.serial ≠ w'.origin.serial
  old : ∀ byte ∈ s.stream, byte.1.serial < s.serial
  stream : ∃ read, s.stream.map (·.2) = read ++ s.pipe.buf
  accepted : ∀ origin : PipeOrigin, origin.accepted s.stream <+: origin.data
  contiguous : ∀ origin : PipeOrigin, origin.Small → origin.Contiguous s.stream

-- The serial number of the task is new, or was its own before.
def Numbered (s : PipeSystem τ) (t : τ) (pc : PipePc) : Prop :=
  ∀ w, pc.writer = some w → w.origin.serial = s.serial ∨
    ∃ w', (s.pc t).writer = some w' ∧ w.origin.serial = w'.origin.serial

theorem Inv.distinct_goto (hi : s.Inv) (hw : s.Numbered t pc) (t₁ t₂ : τ) (w₁ w₂ : PipeWriter) (hne : t₁ ≠ t₂)
    (h₁ : (Function.update s.pc t pc t₁).writer = some w₁) (h₂ : (Function.update s.pc t pc t₂).writer = some w₂) :
    w₁.origin.serial ≠ w₂.origin.serial := by
  have hdistinct (t' : τ) (w w' : PipeWriter) (ht : t' ≠ t) (h : pc.writer = some w) (h' : (s.pc t').writer = some w') :
      w.origin.serial ≠ w'.origin.serial := by
    obtain hnew | ⟨old, hold, heq⟩ := hw w h
    case inl => exact hnew ▸ ((hi.placed t').serial_lt h').ne'
    case inr => exact heq ▸ hi.distinct t t' old w' (Ne.symm ht) hold h'
  by_cases ht₁ : t₁ = t
  case pos =>
    subst ht₁
    have ht₂ : t₂ ≠ t₁ := Ne.symm hne
    simp only [Function.update_self, ne_eq, ht₂, not_false_eq_true, Function.update_of_ne] at h₁ h₂
    exact hdistinct t₂ w₁ w₂ ht₂ h₁ h₂
  case neg =>
    by_cases ht₂ : t₂ = t
    case pos =>
      subst ht₂
      simp only [Function.update_self, ne_eq, ht₁, not_false_eq_true, Function.update_of_ne] at h₁ h₂
      exact (hdistinct t₁ w₂ w₁ ht₁ h₂ h₁).symm
    case neg =>
      simp only [ne_eq, ht₁, ht₂, not_false_eq_true, Function.update_of_ne] at h₁ h₂
      exact hi.distinct t₁ t₂ w₁ w₂ hne h₁ h₂

-- A step after which the calls have been accepted as before. The task may have begun a call.
theorem Inv.goto (hi : s.Inv) {pipe : PipeState} (hle : s.serial ≤ serial) (hp : Placed s.stream serial pc)
    (hstream : ∃ read, s.stream.map (·.2) = read ++ pipe.buf) (hw : s.Numbered t pc) :
    ({ s with pipe, serial }.goto t pc).Inv where
  placed t' := by
    by_cases ht : t' = t
    case pos => simpa [ht, PipeSystem.goto] using hp
    case neg => simpa [ht, PipeSystem.goto] using (hi.placed t').mono hle
  distinct := hi.distinct_goto hw
  old byte hb := Nat.lt_of_lt_of_le (hi.old byte hb) hle
  stream := hstream
  accepted := hi.accepted
  contiguous := hi.contiguous

theorem writer_next (h : (PipePc.next w).writer = some w') : w'.origin = w.origin := by
  simp only [PipePc.next] at h
  split at h <;> cases h
  case h_1 hload => exact PipeWriter.load_origin hload
  case h_2 => rfl

theorem writer_accepted {n : Nat} (h : (PipePc.accepted w n).writer = some w') : w'.origin = w.origin := by
  simp only [PipePc.accepted] at h
  split at h
  case h_1 =>
    split at h
    case isTrue =>
      have ho := writer_next h
      exact ho
    case isFalse => split at h <;> cases h <;> rfl
  case h_2 =>
    split at h
    case isTrue =>
      cases h
      rfl
    case isFalse =>
      have ho := writer_next h
      exact ho

-- A part of the slice has been accepted.
theorem Running.accept {n : Nat} (h : Running stream serial w) (hn : n ≤ w.slice.length) :
    let w' := { w with slice := w.slice.drop n, total := w.total + n }
    w'.Fits ∧ w.origin.accepted (stream ++ (w.slice.take n).map (w.origin, ·)) ++ w'.left = w.origin.data ∧
      (w.origin.accepted (stream ++ (w.slice.take n).map (w.origin, ·))).length = w'.done + w'.total := by
  intro w'
  rw [PipeOrigin.accepted_append_self]
  have hlen : (w.slice.drop n).length = w.slice.length - n := List.length_drop
  refine ⟨⟨h.fits.data, h.fits.done, ?_, h.fits.chunked⟩, ?_, ?_⟩
  case refine_1 =>
    obtain hb | hz | hf := h.fits.batch
    case inl => exact .inl hb
    case inr.inl => exact absurd (List.length_pos_of_ne_nil h.slice) (by omega)
    case inr.inr => exact .inr (.inr (by simp only [w', hlen]; omega))
  case refine_2 =>
    rw [← h.split]
    simp [w', PipeWriter.left, ← List.append_assoc (w.slice.take n)]
  case refine_3 =>
    have hcount := h.count
    simp only [List.length_append, List.length_take, w']
    omega

-- Where the task is after a part of its slice has been accepted.
theorem Placed.accepted {n : Nat} (h : Running stream serial w) (hn : n ≤ w.slice.length) (hpos : n ≠ 0)
    (hl : w.origin.Small → w.origin.Last (stream ++ (w.slice.take n).map (w.origin, ·)))
    (hv : w.call.vectored → n < w.slice.length → ¬w.Promised) :
    Placed (stream ++ (w.slice.take n).map (w.origin, ·)) serial (.accepted w n) := by
  obtain ⟨hfits, hsplit, hcount⟩ := h.accept hn
  simp only [PipePc.accepted]
  split
  case h_1 =>
    split
    case isTrue he => exact .next hfits (List.isEmpty_iff.mp he) h.serial hsplit hcount hl
    case isFalse hne =>
      exact ⟨⟨hfits, h.serial, hsplit, hcount, by simpa using hne⟩, fun hs _ => hl hs⟩
  case h_2 iovecs hcall =>
    split
    case isTrue hlt => exact ended_of_unpromised h.serial (hv (by rw [hcall]; rfl) hlt)
    case isFalse hge => exact .next hfits (List.drop_eq_nil_of_le (Nat.not_lt.mp hge)) h.serial hsplit hcount hl

theorem accept_inv {n : Nat} {pipe : PipeState} {wake : Bool} (hi : s.Inv) (hm : s.Meets t .run)
    (hp : s.pc t = .attempt w) (hw : s.pipe.write w.slice = (.ok n, pipe, wake)) :
    ({ s with pipe, stream := s.stream ++ (w.slice.take n).map (w.origin, ·) }.goto t (.accepted w n)).Inv := by
  have hplaced := hi.placed t
  rw [hp] at hplaced
  obtain ⟨hrunning, hlast⟩ := hplaced
  obtain ⟨hreaders, hroom, hn, hbuf⟩ := PipeState.write_eq_ok hw hrunning.slice
  have hslice := List.length_pos_of_ne_nil hrunning.slice
  have hle : n ≤ w.slice.length := by omega
  have hpos : n ≠ 0 := by omega
  obtain ⟨_, hsplit, _⟩ := hrunning.accept hle
  have hl (hs : w.origin.Small) : w.origin.Last (s.stream ++ (w.slice.take n).map (w.origin, ·)) := by
    by_cases ht : w.total = 0
    case neg => exact (hlast hs ht).append
    case pos =>
      have hnone : w.origin.accepted s.stream = [] :=
        List.eq_nil_of_length_eq_zero (by rw [hrunning.count, hrunning.done_eq hs, ht])
      exact (PipeOrigin.last_of_nil hnone).append
  have hv (hvec : w.call.vectored) (hlt : n < w.slice.length) : ¬w.Promised := by
    intro hpromised
    have hfits := hm.slice w rfl hp hreaders hpromised hvec hroom
    omega
  constructor
  case placed =>
    intro t'
    by_cases ht : t' = t
    case pos => simpa [ht, PipeSystem.goto] using Placed.accepted hrunning hle hpos hl hv
    case neg =>
      have hother : Placed (s.stream ++ (w.slice.take n).map (w.origin, ·)) s.serial (s.pc t') := by
        refine (hi.placed t').append (fun w' hw' he => ?_) fun w' hw' hs => ?_
        case refine_1 => exact hi.distinct t t' w w' (Ne.symm ht) (by rw [hp]; rfl) hw' (congrArg _ he)
        case refine_2 => exact hm.alone w t' w' rfl hp hreaders hroom ht hw' hs
      simpa [ht, PipeSystem.goto] using hother
  case distinct =>
    refine hi.distinct_goto fun w' hw' => .inr ⟨w, by rw [hp]; rfl, ?_⟩
    rw [writer_accepted hw']
  case old =>
    intro byte hb
    obtain hb | hb := List.mem_append.mp hb
    case inl => exact hi.old byte hb
    case inr =>
      obtain ⟨_, _, rfl⟩ := List.mem_map.mp hb
      exact hrunning.serial
  case stream =>
    obtain ⟨read, hread⟩ := hi.stream
    refine ⟨read, ?_⟩
    show (s.stream ++ (w.slice.take n).map (w.origin, ·)).map (·.2) = read ++ pipe.buf
    rw [hbuf, List.map_append, hread, List.append_assoc]
    simp
  case accepted =>
    intro origin
    by_cases ho : w.origin = origin
    case pos => exact ho ▸ ⟨_, hsplit⟩
    case neg =>
      have heq : origin.accepted (s.stream ++ (w.slice.take n).map (w.origin, ·)) = origin.accepted s.stream :=
        PipeOrigin.accepted_append_ne ho
      exact heq ▸ hi.accepted origin
  case contiguous =>
    intro origin hs
    by_cases ho : w.origin = origin
    case pos => exact ho ▸ (hl (ho ▸ hs)).contiguous
    case neg => exact (hi.contiguous origin hs).append_ne ho

omit [DecidableEq τ] in
-- A step that goes on with the call of the task.
theorem Numbered.same (h : (s.pc t).writer = some w) (hw : ∀ w', pc.writer = some w' → w'.origin = w.origin) :
    s.Numbered t pc :=
  fun w' hw' => .inr ⟨w, h, by rw [hw w' hw']⟩

theorem attempt_inv (hi : s.Inv) (hm : s.Meets t .run) (hp : s.pc t = .attempt w)
    (h : s.advance t (.attempt w) = some s') : s'.Inv := by
  have hplaced := hi.placed t
  rw [hp] at hplaced
  obtain ⟨hrunning, _⟩ := hplaced
  have hwriter : (s.pc t).writer = some w := by rw [hp]; rfl
  simp only [advance] at h
  split at h <;> cases h
  case h_1 hw => exact accept_inv hi hm hp hw
  case h_2 hw =>
    -- The pipe is full, so that nothing of the batch may have been accepted if the call has been promised something.
    obtain ⟨hreaders, hfull, _⟩ | ⟨_, he⟩ := PipeState.write_eq_error hw
    case inr => cases he
    refine hi.goto le_rfl ?_ hi.stream (.same hwriter fun w' hw' => ?_)
    case refine_1 =>
      split
      case isTrue ht =>
        refine ended_of_unpromised hrunning.serial fun hpromised => ?_
        have hroom := hm.room w rfl hp hreaders hpromised ht
        omega
      case isFalse ht => exact ⟨hrunning, not_not.mp ht⟩
    case refine_2 => split at hw' <;> cases hw' <;> rfl
  case h_3 err hne hw =>
    obtain ⟨_, _, he⟩ | ⟨hreaders, he⟩ := PipeState.write_eq_error hw
    case inl => exact (hne he).elim
    subst he
    exact hi.goto le_rfl (hrunning.ended_error (hm.readers w rfl hp hreaders) fun _ => .inr rfl) hi.stream
      (.same hwriter fun w' hw' => by cases hw'; rfl)

theorem wait_inv (hi : s.Inv) (hp : s.pc t = .wait w) (h : s.advance t (.wait w) = some s') : s'.Inv := by
  have hplaced := hi.placed t
  rw [hp] at hplaced
  obtain ⟨hrunning, ht⟩ := hplaced
  have hwriter : (s.pc t).writer = some w := by rw [hp]; rfl
  simp only [advance] at h
  split at h
  case isTrue hn =>
    cases h
    exact hi.goto le_rfl (hrunning.ended_error (fun _ _ => ht) fun hb => absurd hn hb) hi.stream
      (.same hwriter fun w' hw' => by cases hw'; rfl)
  case isFalse hn =>
    split at h <;> cases h
    case isTrue => exact hi.goto le_rfl ⟨hrunning, ht, hn⟩ hi.stream (.same hwriter fun w' hw' => by cases hw'; rfl)
    case isFalse =>
      exact hi.goto le_rfl ⟨hrunning, fun _ hz => absurd ht hz⟩ hi.stream
        (.same hwriter fun w' hw' => by cases hw'; rfl)

-- A call starts when nothing of it has been accepted.
theorem start_placed {call : PipeCall} {number : Nat} {nonblock : Bool} (hn : number < serial)
    (hnone : (⟨number, call.data⟩ : PipeOrigin).accepted stream = []) :
    Placed stream serial (.next (call.start number nonblock)) := by
  refine .next (PipeWriter.start_fits ..) rfl hn ?_ ?_ fun _ => PipeOrigin.last_of_nil hnone
  case refine_1 =>
    rw [PipeWriter.start_left]
    show (⟨number, call.data⟩ : PipeOrigin).accepted stream ++ call.data = call.data
    rw [hnone, List.nil_append]
  case refine_2 =>
    show ((⟨number, call.data⟩ : PipeOrigin).accepted stream).length = 0
    rw [hnone, List.length_nil]

theorem start_inv {call : PipeCall} {nonblock : Bool} (hi : s.Inv) :
    ({ s with serial := s.serial + 1 }.goto t (.next (call.start s.serial nonblock))).Inv := by
  have hnone : (⟨s.serial, call.data⟩ : PipeOrigin).accepted s.stream = [] := by
    refine PipeOrigin.accepted_eq_nil_iff.mpr fun byte hb he => ?_
    have hlt := hi.old byte hb
    rw [he] at hlt
    exact Nat.lt_irrefl _ hlt
  refine hi.goto (Nat.le_succ _) (start_placed (Nat.lt_succ_self _) hnone) hi.stream fun w hw => .inl ?_
  rw [writer_next hw]
  rfl

-- A call that is restarted has not been accepted in part.
theorem restart_inv (hi : s.Inv) (hm : s.Meets t .restart) (hp : s.pc t = .asleep w) :
    (s.goto t (.next (w.call.start w.origin.serial w.nonblock))).Inv := by
  have hplaced := hi.placed t
  rw [hp] at hplaced
  obtain ⟨hrunning, ht, _⟩ := hplaced
  have horigin : w.origin = ⟨w.origin.serial, w.call.data⟩ := by rw [← hrunning.fits.data]
  have hnone : w.origin.accepted s.stream = [] :=
    List.eq_nil_of_length_eq_zero (by rw [hrunning.count, hm.fresh w rfl hp, ht])
  refine hi.goto le_rfl (start_placed hrunning.serial (horigin ▸ hnone)) hi.stream
    (.same (w := w) (by rw [hp]; rfl) fun w' hw' => ?_)
  rw [writer_next hw', horigin]
  rfl

omit [DecidableEq τ] in
theorem pipe_inv {pipe : PipeState} (hi : s.Inv) (h : ∃ read, s.pipe.buf = read ++ pipe.buf) :
    ({ s with pipe } : PipeSystem τ).Inv where
  placed := hi.placed
  distinct := hi.distinct
  old := hi.old
  stream := by
    obtain ⟨before, hbefore⟩ := hi.stream
    obtain ⟨read, hread⟩ := h
    exact ⟨before ++ read, by rw [hbefore, hread, List.append_assoc]⟩
  accepted := hi.accepted
  contiguous := hi.contiguous

theorem step_inv (hi : s.Inv) (hm : s.Meets t act) (h : s.step t act = some s') : s'.Inv := by
  cases act
  case start call nonblock =>
    simp only [step] at h
    split at h <;> cases h <;> exact start_inv hi
  case run =>
    simp only [step] at h
    generalize hp : s.pc t = pc at h
    cases pc
    case attempt w => exact attempt_inv hi hm hp h
    case wait w => exact wait_inv hi hp h
    all_goals cases h
  case wake =>
    simp only [step] at h
    split at h
    case h_2 => cases h
    case h_1 w hp =>
      cases h
      have hplaced := hi.placed t
      rw [hp] at hplaced
      exact hi.goto le_rfl ⟨hplaced.1, fun _ hz => absurd hplaced.2.1 hz⟩ hi.stream
        (.same (w := w) (by rw [hp]; rfl) fun w' hw' => by cases hw'; rfl)
  case restart =>
    simp only [step] at h
    split at h <;> cases h
    case h_1 w hp => exact restart_inv hi hm hp
  case interrupt =>
    simp only [step] at h
    split at h
    case h_2 => cases h
    case h_1 w hp =>
      cases h
      have hplaced := hi.placed t
      rw [hp] at hplaced
      exact hi.goto le_rfl (hplaced.1.ended_error (fun hn => absurd hn hplaced.2.2) fun _ => .inl rfl) hi.stream
        (.same (w := w) (by rw [hp]; rfl) fun w' hw' => by cases hw'; rfl)
  case read len =>
    cases h
    refine pipe_inv hi ?_
    cases hr : (s.pipe.read len).fst
    case error err => exact ⟨[], by rw [PipeState.read_error hr]; rfl⟩
    case ok bytes => exact ⟨s.pipe.buf.take len, by rw [(PipeState.read_ok hr).2.1, List.take_append_drop]⟩
  case dupReader =>
    simp only [step] at h
    split at h <;> cases h
    exact pipe_inv hi ⟨[], rfl⟩
  case closeReader =>
    cases h
    exact pipe_inv hi ⟨[], rfl⟩

omit [DecidableEq τ] in
theorem initial_inv : (initial : PipeSystem τ).Inv where
  placed _ := trivial
  distinct _ _ _ _ _ h := by cases h
  old _ h := by cases h
  stream := ⟨[], rfl⟩
  accepted _ := List.nil_prefix
  contiguous _ _ := (PipeOrigin.last_of_nil rfl).contiguous

end PipeSystem

end WllOs.Fs
