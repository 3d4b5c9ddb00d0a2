import WllOs.Fs.MemFileContent

namespace WllOs

open Buffer

variable {content : List UInt8} {chunks : Chunks} {len offset copied n i j : Nat} {buf : List UInt8}

namespace Chunks

def chunkAt (chunks : Chunks) (j : Nat) : List UInt8 :=
  chunks[j]?.join.getD []

-- The byte at a position. It is zero where there are no bytes.
def byteAt (chunks : Chunks) (i : Nat) : UInt8 :=
  (chunks.chunkAt (i / MEM_FILE_CHUNK_SIZE)).getD (i % MEM_FILE_CHUNK_SIZE) 0

-- The chunks have no bytes past the end.
def Fits (chunks : Chunks) (len : Nat) : Prop :=
  ∀ j, (chunks.chunkAt j).length ≤ MEM_FILE_CHUNK_SIZE ∧
    (chunks.chunkAt j = [] ∨ j * MEM_FILE_CHUNK_SIZE + (chunks.chunkAt j).length ≤ len)

theorem chunkAt_cons_zero (part : Option (List UInt8)) : chunkAt (part :: chunks) 0 = part.getD [] := by
  simp [chunkAt]

theorem chunkAt_cons_succ (part : Option (List UInt8)) : chunkAt (part :: chunks) (j + 1) = chunks.chunkAt j := by
  simp [chunkAt]

theorem getD_part {part : List UInt8} (i : Nat) :
    ((if part.all (· = 0) then none else some part : Option (List UInt8)).getD []).getD i 0 = part.getD i 0 := by
  split
  case isTrue hp =>
    simp only [List.all_eq_true, decide_eq_true_eq] at hp
    by_cases hi : i < part.length
    case pos => simp [List.getD_eq_getElem?_getD, hi, hp _ (List.getElem_mem hi)]
    case neg => simp [List.getD_eq_getElem?_getD, hi]
  case isFalse => rfl

theorem byteAt_split : (split content).byteAt i = content.getD i 0 := by
  induction content using split.induct generalizing i
  case case1 => simp [split, byteAt, chunkAt]
  case case2 byte content hi =>
    rw [split]
    have hp := chunkSize_pos
    by_cases hl : i < MEM_FILE_CHUNK_SIZE
    case pos =>
      simp only [byteAt, Nat.div_eq_of_lt hl, Nat.mod_eq_of_lt hl, chunkAt_cons_zero, getD_part]
      simp [List.getD_eq_getElem?_getD, hl]
    case neg =>
      have hd : i / MEM_FILE_CHUNK_SIZE = (i - MEM_FILE_CHUNK_SIZE) / MEM_FILE_CHUNK_SIZE + 1 :=
        Nat.div_eq_sub_div hp (by omega)
      have hm : i % MEM_FILE_CHUNK_SIZE = (i - MEM_FILE_CHUNK_SIZE) % MEM_FILE_CHUNK_SIZE :=
        Nat.mod_eq_sub_mod (by omega)
      have := hi (i := i - MEM_FILE_CHUNK_SIZE)
      simp only [byteAt] at this ⊢
      rw [hd, hm, chunkAt_cons_succ, this]
      simp only [List.getD_eq_getElem?_getD, List.getElem?_drop]
      congr 2
      omega

theorem fits_split : (split content).Fits content.length := by
  induction content using split.induct
  case case1 => intro j; simp [split, chunkAt]
  case case2 byte content hi =>
    intro j
    rw [split]
    cases j
    case zero =>
      rw [chunkAt_cons_zero]
      split
      case isTrue => simp
      case isFalse =>
        simp only [Option.getD_some, List.length_take]
        omega
    case succ j =>
      rw [chunkAt_cons_succ]
      have ⟨hc, hl⟩ := hi j
      refine ⟨hc, ?_⟩
      by_cases he : (split ((byte :: content).drop MEM_FILE_CHUNK_SIZE)).chunkAt j = []
      case pos => exact .inl he
      case neg =>
        have := hl.resolve_left he
        have hp := List.length_pos_iff.mpr he
        simp only [List.length_drop] at this
        rw [Nat.succ_mul]
        omega

variable {pos toRead : Nat} {bytes : List UInt8}

-- Positions of one chunk.
theorem div_eq_of_mem (hi : pos ≤ i) (hn : i < pos + (MEM_FILE_CHUNK_SIZE - pos % MEM_FILE_CHUNK_SIZE)) :
    i / MEM_FILE_CHUNK_SIZE = pos / MEM_FILE_CHUNK_SIZE ∧
      i % MEM_FILE_CHUNK_SIZE = pos % MEM_FILE_CHUNK_SIZE + (i - pos) := by
  have hp := Nat.div_add_mod' pos MEM_FILE_CHUNK_SIZE
  have hm := Nat.mod_lt pos chunkSize_pos
  have he : i = pos % MEM_FILE_CHUNK_SIZE + (i - pos) + pos / MEM_FILE_CHUNK_SIZE * MEM_FILE_CHUNK_SIZE := by omega
  have hl : pos % MEM_FILE_CHUNK_SIZE + (i - pos) < MEM_FILE_CHUNK_SIZE := by omega
  constructor
  case left =>
    rw [he, Nat.add_mul_div_right _ _ chunkSize_pos, Nat.div_eq_of_lt hl, Nat.zero_add]
  case right =>
    conv => lhs; rw [he]
    rw [Nat.add_mul_mod_self_right, Nat.mod_eq_of_lt hl]

theorem byteAt_of_mem (chunks : Chunks) (hi : pos ≤ i) (hn : i < pos + (MEM_FILE_CHUNK_SIZE - pos % MEM_FILE_CHUNK_SIZE)) :
    chunks.byteAt i = (chunks.chunkAt (pos / MEM_FILE_CHUNK_SIZE)).getD (pos % MEM_FILE_CHUNK_SIZE + (i - pos)) 0 := by
  have ⟨hd, hm⟩ := div_eq_of_mem hi hn
  rw [byteAt, hd, hm]

theorem readPart_eq (chunks : Chunks) (pos : Nat) (h : copied + n ≤ buf.length) :
    (chunks.readPart pos copied n buf).length = buf.length ∧
      ∀ i, (chunks.readPart pos copied n buf).getD i 0 =
        if copied ≤ i ∧ i < copied + n ∧
            pos % MEM_FILE_CHUNK_SIZE + (i - copied) < (chunks.chunkAt (pos / MEM_FILE_CHUNK_SIZE)).length then
          (chunks.chunkAt (pos / MEM_FILE_CHUNK_SIZE)).getD (pos % MEM_FILE_CHUNK_SIZE + (i - copied)) 0
        else buf.getD i 0 := by
  simp only [readPart, chunkAt]
  split
  case h_1 chunk hc =>
    simp only [hc, Option.join_some, Option.getD_some]
    split
    case isTrue hl =>
      have hs := length_slice chunk (pos % MEM_FILE_CHUNK_SIZE) (min n (chunk.length - pos % MEM_FILE_CHUNK_SIZE))
      refine ⟨length_overwrite (by omega), fun i => ?_⟩
      rw [getD_overwrite (by omega), getD_slice, hs]
      grind
    case isFalse hl =>
      refine ⟨rfl, fun i => ?_⟩
      rw [if_neg (by omega)]
  case h_2 hc =>
    have he : chunks[pos / MEM_FILE_CHUNK_SIZE]?.join.getD [] = ([] : List UInt8) := by
      cases he : chunks[pos / MEM_FILE_CHUNK_SIZE]? with
      | none => rfl
      | some chunk => cases chunk with
        | none => rfl
        | some chunk => exact absurd he (hc chunk)
    simp [he]

theorem readLoop_eq (chunks : Chunks) (offset copied : Nat) (h : toRead ≤ buf.length)
    (hz : ∀ i, copied ≤ i → i < toRead → buf.getD i 0 = 0) :
    (chunks.readLoop offset toRead copied buf).length = buf.length ∧
      ∀ i, (chunks.readLoop offset toRead copied buf).getD i 0 =
        if copied ≤ i ∧ i < toRead then chunks.byteAt (offset + i) else buf.getD i 0 := by
  induction copied, buf using readLoop.induct chunks offset toRead
  case case1 copied buf hc pos n hi =>
    have hm := Nat.mod_lt pos chunkSize_pos
    have ⟨hl, hp⟩ := readPart_eq chunks pos (show copied + n ≤ buf.length by omega)
    have ⟨hl', hi⟩ := hi (by omega) fun i hi hn => by rw [hp, if_neg (by omega)]; exact hz i (by omega) hn
    rw [readLoop, if_pos hc]
    refine ⟨hl'.trans hl, fun i => (hi i).trans ?_⟩
    by_cases hx : copied ≤ i ∧ i < copied + n
    case pos =>
      have hb := byteAt_of_mem chunks (show pos ≤ offset + i by omega) (by omega)
      have hd : offset + i - pos = i - copied := by omega
      rw [if_neg (by omega), if_pos (by omega), hp, hb, hd]
      split
      case isTrue => rfl
      case isFalse hn =>
        rw [hz i hx.left (by omega), getD_of_length_le (by omega)]
    case neg =>
      have hpi : (chunks.readPart pos copied n buf).getD i 0 = buf.getD i 0 := by rw [hp, if_neg (by omega)]
      rw [hpi]
      by_cases hr : copied ≤ i ∧ i < toRead
      case pos => rw [if_pos (by omega), if_pos hr]
      case neg => rw [if_neg (by omega), if_neg hr]
  case case2 copied buf hc =>
    rw [readLoop, if_neg hc]
    exact ⟨rfl, fun i => by rw [if_neg (by omega)]⟩

theorem chunkAt_replicate (k : Nat) : chunkAt (chunks ++ List.replicate k none) j = chunks.chunkAt j := by
  simp only [chunkAt, List.getElem?_append, List.getElem?_replicate]
  grind

theorem chunkAt_set {chunk : List UInt8} (h : i < chunks.length) :
    chunkAt (chunks.set i (some chunk)) j = if j = i then chunk else chunks.chunkAt j := by
  simp only [chunkAt, List.getElem?_set]
  grind

theorem chunkAt_writePart : (chunks.writePart pos bytes).chunkAt j =
    if j = pos / MEM_FILE_CHUNK_SIZE then
      overwrite (Buffer.resize 0 (chunks.chunkAt j)
        (max (chunks.chunkAt j).length (pos % MEM_FILE_CHUNK_SIZE + bytes.length))) (pos % MEM_FILE_CHUNK_SIZE) bytes
    else chunks.chunkAt j := by
  simp only [writePart]
  rw [chunkAt_set (by simp only [List.length_append, List.length_replicate]; omega), resize_max, chunkAt_replicate]
  split
  case isTrue hj =>
    have hc : chunkAt (chunks ++ List.replicate (j + 1 - chunks.length) none) j = chunks.chunkAt j := chunkAt_replicate _
    subst hj
    rw [← hc]
    rfl
  case isFalse => rfl

theorem byteAt_writePart (h : bytes.length ≤ MEM_FILE_CHUNK_SIZE - pos % MEM_FILE_CHUNK_SIZE) :
    (chunks.writePart pos bytes).byteAt i =
      if pos ≤ i ∧ i < pos + bytes.length then bytes.getD (i - pos) 0 else chunks.byteAt i := by
  have hp := Nat.div_add_mod' pos MEM_FILE_CHUNK_SIZE
  have hi := Nat.div_add_mod' i MEM_FILE_CHUNK_SIZE
  simp only [byteAt, chunkAt_writePart]
  split
  case isTrue he =>
    rw [he] at hi ⊢
    rw [getD_overwrite (by simp only [length_resize]; omega), getD_resize]
    by_cases hm : pos ≤ i ∧ i < pos + bytes.length
    case pos =>
      rw [if_pos hm, if_pos (by omega)]
      congr 1
      omega
    case neg =>
      rw [if_neg hm, if_neg (by omega)]
      split
      case isTrue => rfl
      case isFalse => exact (getD_of_length_le (by omega)).symm
  case isFalse he => rw [if_neg fun hm => he (div_eq_of_mem hm.left (by omega)).left]

theorem Fits.writePart (h : chunks.Fits len) (hb : bytes.length ≤ MEM_FILE_CHUNK_SIZE - pos % MEM_FILE_CHUNK_SIZE)
    (hl : pos + bytes.length ≤ len) : (chunks.writePart pos bytes).Fits len := by
  intro j
  have hp := Nat.div_add_mod' pos MEM_FILE_CHUNK_SIZE
  have hm := Nat.mod_lt pos chunkSize_pos
  have ⟨hj, hx⟩ := h j
  rw [chunkAt_writePart]
  split
  case isTrue he =>
    rw [length_overwrite (by simp only [length_resize]; omega), length_resize]
    refine ⟨by omega, .inr ?_⟩
    rw [he] at hx ⊢
    cases hx
    case inl hx => simp only [hx, List.length_nil]; omega
    case inr hx => omega
  case isFalse => exact ⟨hj, hx⟩

theorem writeLoop_eq (copied : Nat) (h : chunks.Fits len) (hl : offset + buf.length ≤ len) (hm : len ≤ Usize.max) :
    (chunks.writeLoop offset copied buf).Fits len ∧
      ∀ i, (chunks.writeLoop offset copied buf).byteAt i =
        if offset + copied ≤ i ∧ i < offset + buf.length then buf.getD (i - offset) 0 else chunks.byteAt i := by
  induction chunks, copied using writeLoop.induct offset buf
  case case1 chunks copied hc pos n hi =>
    have hp : pos = offset + copied := Usize.wrappingAdd_eq (by omega)
    have hn : (slice buf copied n).length = n := by rw [length_slice]; omega
    have hb : (slice buf copied n).length ≤ MEM_FILE_CHUNK_SIZE - pos % MEM_FILE_CHUNK_SIZE := by omega
    have hm := Nat.mod_lt pos chunkSize_pos
    have ⟨hf, hi⟩ := hi (h.writePart hb (by omega))
    rw [writeLoop, if_pos hc]
    refine ⟨hf, fun i => (hi i).trans ?_⟩
    rw [byteAt_writePart hb, hn, getD_slice]
    by_cases hx : pos ≤ i ∧ i < pos + n
    case pos =>
      rw [if_neg (by omega), if_pos hx, if_pos (by omega), if_pos (by omega)]
      congr 1
      omega
    case neg =>
      rw [if_neg hx]
      by_cases hr : offset + copied ≤ i ∧ i < offset + buf.length
      case pos => rw [if_pos (by omega), if_pos hr]
      case neg => rw [if_neg (by omega), if_neg hr]
  case case2 chunks copied hc =>
    rw [writeLoop, if_neg hc]
    exact ⟨h, fun i => by rw [if_neg (by omega)]⟩

variable {newLen : Nat}

-- The number of chunks that a length needs.
def needed (newLen : Nat) : Nat :=
  (newLen + (MEM_FILE_CHUNK_SIZE - 1)) / MEM_FILE_CHUNK_SIZE

theorem lt_needed : j < needed newLen ↔ j * MEM_FILE_CHUNK_SIZE < newLen := by
  have hp := chunkSize_pos
  rw [needed, Nat.lt_div_iff_mul_lt hp]
  constructor <;> omega

theorem chunkAt_take (chunks : Chunks) (k : Nat) :
    chunkAt (chunks.take k) j = if j < k then chunks.chunkAt j else [] := by
  simp only [chunkAt, List.getElem?_take]
  split <;> rfl

theorem chunkAt_truncateLast (chunks : Chunks) (n : Nat) : (chunks.truncateLast n).chunkAt j =
    if j + 1 = chunks.length then (chunks.chunkAt j).take n else chunks.chunkAt j := by
  rw [truncateLast, List.getLast?_eq_getElem?]
  split
  case h_1 last hl =>
    have ⟨hp, _⟩ := List.getElem?_eq_some_iff.mp hl
    rw [chunkAt_set hp]
    by_cases hj : j = chunks.length - 1
    case pos =>
      subst hj
      rw [if_pos rfl, if_pos (by omega)]
      simp [chunkAt, hl]
    case neg => rw [if_neg hj, if_neg (by omega)]
  case h_2 hl =>
    split
    case isTrue hj =>
      have he : chunks.chunkAt j = [] := by
        have hx : chunks.length - 1 = j := by omega
        rw [hx] at hl
        simp only [chunkAt]
        cases hc : chunks[j]? with
        | none => rfl
        | some chunk => cases chunk with
          | none => rfl
          | some chunk => exact absurd hc (hl chunk)
      simp [he]
    case isFalse => rfl

theorem chunkAt_resize (h : newLen + (MEM_FILE_CHUNK_SIZE - 1) ≤ Usize.max) : (chunks.resize newLen).chunkAt j =
    if j * MEM_FILE_CHUNK_SIZE < newLen then
      (if j + 1 = needed newLen then
        (chunks.chunkAt j).take (min (newLen - j * MEM_FILE_CHUNK_SIZE) MEM_FILE_CHUNK_SIZE)
      else chunks.chunkAt j)
    else [] := by
  have hn : (if newLen = 0 then 0 else Usize.wrappingAdd newLen (MEM_FILE_CHUNK_SIZE - 1) / MEM_FILE_CHUNK_SIZE) =
      needed newLen := by
    rw [Usize.wrappingAdd_eq h]
    split
    case isTrue hz => rw [hz, needed, Nat.zero_add, Nat.div_eq_of_lt (Nat.sub_lt chunkSize_pos Nat.one_pos)]
    case isFalse => rfl
  have hl : ((chunks ++ List.replicate (needed newLen - chunks.length) none).take (needed newLen)).length =
      needed newLen := by
    simp only [List.length_take, List.length_append, List.length_replicate]
    omega
  simp only [resize, hn]
  rw [chunkAt_truncateLast, hl, chunkAt_take, chunkAt_replicate]
  by_cases hj : j < needed newLen
  case pos =>
    rw [if_pos (lt_needed.mp hj), if_pos hj]
    split
    case isTrue he =>
      have hx : needed newLen - 1 = j := by omega
      rw [hx]
    case isFalse => rfl
  case neg =>
    rw [if_neg (fun hx => hj (lt_needed.mpr hx)), if_neg hj, if_neg (by omega)]

theorem byteAt_resize (h : newLen + (MEM_FILE_CHUNK_SIZE - 1) ≤ Usize.max) :
    (chunks.resize newLen).byteAt i = if i < newLen then chunks.byteAt i else 0 := by
  have hi := Nat.div_add_mod' i MEM_FILE_CHUNK_SIZE
  have hm := Nat.mod_lt i chunkSize_pos
  have hl : i / MEM_FILE_CHUNK_SIZE < needed newLen ↔ _ := lt_needed
  have hs : i / MEM_FILE_CHUNK_SIZE + 1 < needed newLen ↔ _ := lt_needed
  rw [Nat.succ_mul] at hs
  simp only [byteAt, chunkAt_resize h, List.getD_eq_getElem?_getD]
  generalize (chunks.chunkAt (i / MEM_FILE_CHUNK_SIZE)) = chunk
  by_cases hc : i / MEM_FILE_CHUNK_SIZE * MEM_FILE_CHUNK_SIZE < newLen
  case pos =>
    rw [if_pos hc]
    split
    case isTrue he =>
      rw [List.getElem?_take]
      by_cases hn : i < newLen
      case pos => rw [if_pos (by omega), if_pos hn]
      case neg => rw [if_neg (by omega), if_neg hn, Option.getD_none]
    case isFalse he => rw [if_pos (by omega)]
  case neg =>
    rw [if_neg hc, if_neg (by omega)]
    rfl

theorem Fits.resize (h : chunks.Fits len) (hn : newLen + (MEM_FILE_CHUNK_SIZE - 1) ≤ Usize.max) :
    (chunks.resize newLen).Fits newLen := by
  intro j
  have ⟨hj, _⟩ := h j
  have hl : j < needed newLen ↔ _ := lt_needed
  have hs : j + 1 < needed newLen ↔ _ := lt_needed
  rw [Nat.succ_mul] at hs
  rw [chunkAt_resize hn]
  split
  case isTrue =>
    split
    case isTrue =>
      rw [List.length_take]
      exact ⟨by omega, .inr (by omega)⟩
    case isFalse => exact ⟨hj, .inr (by omega)⟩
  case isFalse => exact ⟨Nat.zero_le _, .inl rfl⟩

end Chunks

namespace MemFileContent

variable {content : MemFileContent} {bytes : List UInt8} {newLen : Nat}

def byteAt : MemFileContent → Nat → UInt8
  | inline content,   i => content.getD i 0
  | chunked _ chunks, i => chunks.byteAt i

def Fits : MemFileContent → Prop
  | inline _           => True
  | chunked len chunks => chunks.Fits len

-- The content stands for the bytes.
structure Denotes (content : MemFileContent) (bytes : List UInt8) : Prop where
  fits : content.Fits
  len : content.len = bytes.length
  byteAt : ∀ i, content.byteAt i = bytes.getD i 0

theorem denotes_new : new.Denotes [] :=
  ⟨trivial, rfl, fun _ => rfl⟩

theorem denotes_inline (bytes : List UInt8) : (inline bytes).Denotes bytes :=
  ⟨trivial, rfl, fun _ => rfl⟩

theorem denotes_fromSlice (bytes : List UInt8) : (fromSlice bytes).Denotes bytes := by
  rw [fromSlice]
  split
  case isTrue => exact denotes_inline bytes
  case isFalse => exact ⟨Chunks.fits_split, rfl, fun _ => Chunks.byteAt_split⟩

theorem Denotes.readAt_eq (h : content.Denotes bytes) (offset : Nat) (buf : List UInt8) :
    content.readAt offset buf = ByteVector.readAt bytes offset buf := by
  have hs := length_slice bytes offset buf.length
  simp only [readAt, ByteVector.readAt, h.len]
  split
  case isTrue he =>
    have hn : slice bytes offset buf.length = [] := by
      apply List.length_eq_zero_iff.mp
      rw [hs]
      cases he
      case inl he => omega
      case inr he => simp [List.isEmpty_iff.mp he]
    simp [hn]
  case isFalse he =>
    have hb := h.byteAt
    cases content
    case inline content =>
      have hc : content = bytes := ext_getD h.len hb
      have hx : slice content offset (min buf.length (content.length - offset)) = slice content offset buf.length := by
        simp only [slice, ← List.take_take, ← List.length_drop, List.take_length]
      subst hc
      dsimp only
      rw [hx, hs]
    case chunked len chunks =>
      rw [hs]
      generalize hr : min buf.length (bytes.length - offset) = toRead at hs
      have ht : toRead ≤ buf.length := by omega
      have hz : (overwrite buf 0 (List.replicate toRead 0)).length = buf.length :=
        length_overwrite (by simpa using ht)
      have hd : ∀ i, (overwrite buf 0 (List.replicate toRead 0)).getD i 0 = if i < toRead then 0 else buf.getD i 0 := by
        intro i
        rw [getD_overwrite (Nat.zero_le _), List.length_replicate]
        grind
      obtain ⟨hl, hg⟩ := Chunks.readLoop_eq chunks offset 0 (hz ▸ ht)
        fun i (_ : 0 ≤ i) hi => by rw [hd, if_pos hi]
      dsimp only
      congr 1
      apply @ext_getD _ _ 0
      case hl => rw [hl, hz, length_overwrite (by omega)]
      case h =>
        intro i
        rw [hg, hd, getD_overwrite (Nat.zero_le _), hs, Nat.sub_zero, Nat.zero_add]
        by_cases hi : i < toRead
        case pos => rw [if_pos ⟨Nat.zero_le i, hi⟩, if_pos ⟨Nat.zero_le i, hi⟩, getD_slice, if_pos (by omega)]; exact hb _
        case neg => rw [if_neg (by omega), if_neg hi, if_neg (by omega)]

theorem Denotes.toVec_eq (h : content.Denotes bytes) : content.toVec = bytes := by
  cases content
  case inline content => exact ext_getD h.len h.byteAt
  case chunked len chunks =>
    have hl : len = bytes.length := h.len
    rw [toVec, h.readAt_eq, hl]
    simp [ByteVector.readAt, slice, overwrite]

variable {newLen : Nat}

theorem denotes_resizeChunked {chunks : Chunks} {len : Nat} (h : (chunked len chunks).Denotes bytes)
    (hn : newLen + (MEM_FILE_CHUNK_SIZE - 1) ≤ Usize.max) :
    (resizeChunked chunks newLen).Denotes (Buffer.resize 0 bytes newLen) := by
  have hd : (chunked newLen (chunks.resize newLen)).Denotes (Buffer.resize 0 bytes newLen) := by
    refine ⟨Chunks.Fits.resize h.fits hn, length_resize.symm, fun i => ?_⟩
    rw [getD_resize, ← h.byteAt]
    exact Chunks.byteAt_resize hn
  rw [resizeChunked]
  split
  case isTrue => rw [hd.toVec_eq]; exact denotes_inline _
  case isFalse => exact hd

theorem Denotes.resize (h : content.Denotes bytes) (hn : newLen + (MEM_FILE_CHUNK_SIZE - 1) ≤ Usize.max) :
    (content.resize newLen).Denotes (Buffer.resize 0 bytes newLen) := by
  cases content
  case inline content =>
    have hc : content = bytes := ext_getD h.len h.byteAt
    subst hc
    rw [MemFileContent.resize]
    split
    case isTrue => exact denotes_inline _
    case isFalse => exact denotes_resizeChunked ⟨Chunks.fits_split, rfl, fun _ => Chunks.byteAt_split⟩ hn
  case chunked len chunks => exact denotes_resizeChunked h hn

theorem maxLen_fits : ByteVector.maxLen + (MEM_FILE_CHUNK_SIZE - 1) ≤ Usize.max := by
  simp [ByteVector.maxLen, MEM_FILE_CHUNK_SIZE, Usize.max]

theorem Denotes.writeAt (h : content.Denotes bytes) (hb : bytes.length ≤ ByteVector.maxLen) {offset : Nat}
    {buf : List UInt8} (hl : offset + buf.length ≤ ByteVector.maxLen) :
    ∃ content', content.writeAt offset buf = some (offset + buf.length, content') ∧
      content'.Denotes (ByteVector.writeAt bytes offset buf) := by
  have hm := maxLen_fits
  have hw : Usize.wrappingAdd offset buf.length = offset + buf.length := Usize.wrappingAdd_eq (by omega)
  simp only [MemFileContent.writeAt, hw, ByteVector.writeAt]
  have hr : (if offset + buf.length > content.len then content.resize (offset + buf.length) else content).Denotes
      (Buffer.resize 0 bytes (max bytes.length (offset + buf.length))) := by
    rw [← resize_max, h.len]
    split
    case isTrue => exact h.resize (by omega)
    case isFalse => exact h
  generalize (if offset + buf.length > content.len then content.resize (offset + buf.length) else content) = grown at hr
  generalize hv : Buffer.resize 0 bytes (max bytes.length (offset + buf.length)) = vector at hr
  have hvl : vector.length = max bytes.length (offset + buf.length) := hv ▸ length_resize
  cases grown
  case inline content =>
    have hc : content = vector := ext_getD hr.len hr.byteAt
    subst hc
    exact ⟨_, if_pos ⟨trivial, by omega⟩, denotes_inline _⟩
  case chunked len chunks =>
    have hlen : len = vector.length := hr.len
    have ⟨hf, hi⟩ := Chunks.writeLoop_eq 0 hr.fits
      (show offset + buf.length ≤ len by omega) (by omega)
    refine ⟨_, rfl, hf, ?_, fun i => ?_⟩
    case refine_1 => rw [length_overwrite (by omega)]; exact hlen
    case refine_2 =>
      rw [getD_overwrite (by omega), ← hr.byteAt]
      exact hi i

-- What a content does is what the bytes that it stands for do.
theorem simulates : Simulation.Simulates
    (fun bytes (content : MemFileContent) => content.Denotes bytes ∧ bytes.length ≤ ByteVector.maxLen)
    ByteVector.step step := by
  intro bytes content op result bytes' ⟨hd, hb⟩ hs
  have bounded {result result' : ContentResult} {bytes bytes' : List UInt8}
      (h : ByteVector.bounded result' bytes = some (result, bytes')) :
      result' = result ∧ bytes = bytes' ∧ bytes.length ≤ ByteVector.maxLen := by
    rw [ByteVector.bounded] at h
    split at h
    case isTrue hl => cases h; exact ⟨rfl, rfl, hl⟩
    case isFalse => cases h
  cases op
  case fromSlice bytes =>
    have ⟨hr, hv, hl⟩ := bounded hs
    subst hr hv
    exact ⟨_, rfl, denotes_fromSlice bytes, hl⟩
  case clear => cases hs; exact ⟨_, rfl, denotes_new, Nat.zero_le _⟩
  case len => cases hs; exact ⟨content, by rw [step, hd.len], hd, hb⟩
  case toVec => cases hs; exact ⟨content, by rw [step, hd.toVec_eq], hd, hb⟩
  case readAt offset buf => cases hs; exact ⟨content, by rw [step, hd.readAt_eq], hd, hb⟩
  case writeAt offset buf =>
    have ⟨hr, hv, hl⟩ := bounded hs
    have hl' : offset + buf.length ≤ ByteVector.maxLen := by
      rw [ByteVector.writeAt, length_overwrite (by rw [length_resize]; omega), length_resize] at hl
      omega
    have ⟨content', hw, hd'⟩ := hd.writeAt hb hl'
    subst hr hv
    exact ⟨content', by rw [step, hw]; rfl, hd', hl⟩
  case resize newLen =>
    have ⟨hr, hv, hl⟩ := bounded hs
    have hm := maxLen_fits
    subst hr hv
    rw [length_resize] at hl
    exact ⟨_, rfl, hd.resize (by omega), by rwa [length_resize]⟩

-- A file answers every sequence of operations as a vector of bytes does, whatever its representation is in between.
theorem run_eq_byteVector {ops : List ContentOp} {results : List ContentResult}
    (h : Simulation.run ByteVector.step [] ops = some (results, bytes)) :
    ∃ content, Simulation.run step new ops = some (results, content) ∧ content.len = bytes.length ∧
      content.toVec = bytes := by
  have ⟨content, hr, hd, _⟩ := simulates.run ⟨denotes_new, Nat.zero_le _⟩ h
  exact ⟨content, hr, hd.len, hd.toVec_eq⟩

-- The byte that the first `resize` cuts off is not there after the second one.
theorem run_eq_byteVector_shrink : ∃ content : MemFileContent,
    Simulation.run step new [.writeAt 1 [7, 8], .resize 2, .resize 4, .readAt 1 [9, 9]] =
      some ([(3, []), (0, []), (0, []), (2, [7, 0])], content) ∧
    content.len = 4 ∧ content.toVec = [0, 7, 0, 0] :=
  @run_eq_byteVector [0, 7, 0, 0] _ _ rfl

end MemFileContent

end WllOs
