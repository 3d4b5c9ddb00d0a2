import WllOs.Library.Lists
import WllOs.Library.Simulation
import WllOs.Library.Usize

namespace WllOs

open Buffer

def MEM_FILE_INLINE_LIMIT : Nat := 1024 * 1024

@[irreducible]
def MEM_FILE_CHUNK_SIZE : Nat := 64 * 1024

theorem chunkSize_pos : 0 < MEM_FILE_CHUNK_SIZE := by
  simp [MEM_FILE_CHUNK_SIZE]

-- The chunks that a file has bytes in. A chunk without bytes is full of zeros, and so is the part of a chunk that is
-- not there.
abbrev Chunks := List (Option (List UInt8))

inductive MemFileContent
  | inline (content : List UInt8)
  | chunked (len : Nat) (chunks : Chunks)

namespace Chunks

def split : List UInt8 → Chunks
  | []              => []
  | byte :: content =>
    let part := (byte :: content).take MEM_FILE_CHUNK_SIZE
    (if part.all (· = 0) then none else some part) :: split ((byte :: content).drop MEM_FILE_CHUNK_SIZE)
termination_by content => content.length
decreasing_by
  have := chunkSize_pos
  simp only [List.length_drop, List.length_cons]
  omega

-- Copies the bytes of a chunk that are there.
def readPart (chunks : Chunks) (pos copied n : Nat) (buf : List UInt8) : List UInt8 :=
  match chunks[pos / MEM_FILE_CHUNK_SIZE]? with
  | some (some chunk) =>
    let chunkOff := pos % MEM_FILE_CHUNK_SIZE
    if chunkOff < chunk.length then
      overwrite buf copied (slice chunk chunkOff (min n (chunk.length - chunkOff)))
    else buf
  | _ => buf

-- The loop of `read_at`. The buffer is zero where it has not got to.
def readLoop (chunks : Chunks) (offset toRead copied : Nat) (buf : List UInt8) : List UInt8 :=
  if copied < toRead then
    let pos := offset + copied
    let n := min (toRead - copied) (MEM_FILE_CHUNK_SIZE - pos % MEM_FILE_CHUNK_SIZE)
    readLoop chunks offset toRead (copied + n) (chunks.readPart pos copied n buf)
  else buf
termination_by toRead - copied
decreasing_by
  have := Nat.mod_lt (offset + copied) chunkSize_pos
  omega

-- Writes bytes into a single chunk.
def writePart (chunks : Chunks) (pos : Nat) (bytes : List UInt8) : Chunks :=
  let chunkIdx := pos / MEM_FILE_CHUNK_SIZE
  let chunkOff := pos % MEM_FILE_CHUNK_SIZE
  let chunks := chunks ++ List.replicate (chunkIdx + 1 - chunks.length) none
  let chunk := chunks[chunkIdx]?.join.getD []
  let chunk :=
    if chunk.length < chunkOff + bytes.length then Buffer.resize 0 chunk (chunkOff + bytes.length) else chunk
  chunks.set chunkIdx (some (overwrite chunk chunkOff bytes))

-- The loop of `write_at`.
def writeLoop (chunks : Chunks) (offset copied : Nat) (buf : List UInt8) : Chunks :=
  if copied < buf.length then
    let pos := Usize.wrappingAdd offset copied
    let n := min (buf.length - copied) (MEM_FILE_CHUNK_SIZE - pos % MEM_FILE_CHUNK_SIZE)
    writeLoop (chunks.writePart pos (slice buf copied n)) offset (copied + n) buf
  else chunks
termination_by buf.length - copied
decreasing_by
  have := Nat.mod_lt (Usize.wrappingAdd offset copied) chunkSize_pos
  omega

-- Truncates the last chunk, if it has bytes.
def truncateLast (chunks : Chunks) (target : Nat) : Chunks :=
  match chunks.getLast? with
  | some (some last) => chunks.set (chunks.length - 1) (some (last.take target))
  | _                => chunks

-- The chunks of a file of length `newLen`.
def resize (chunks : Chunks) (newLen : Nat) : Chunks :=
  let needed :=
    if newLen = 0 then 0 else Usize.wrappingAdd newLen (MEM_FILE_CHUNK_SIZE - 1) / MEM_FILE_CHUNK_SIZE
  let chunks := (chunks ++ List.replicate (needed - chunks.length) none).take needed
  let start := (needed - 1) * MEM_FILE_CHUNK_SIZE
  truncateLast chunks (min (newLen - start) MEM_FILE_CHUNK_SIZE)

end Chunks

namespace MemFileContent

def new : MemFileContent :=
  inline []

def fromSlice (content : List UInt8) : MemFileContent :=
  if content.length ≤ MEM_FILE_INLINE_LIMIT then inline content else chunked content.length (.split content)

def len : MemFileContent → Nat
  | inline content => content.length
  | chunked len _  => len

def clear (_ : MemFileContent) : MemFileContent :=
  new

-- The count, and what the buffer holds then.
def readAt (content : MemFileContent) (offset : Nat) (buf : List UInt8) : Nat × List UInt8 :=
  if offset ≥ content.len ∨ buf.isEmpty then (0, buf)
  else
    let toRead := min buf.length (content.len - offset)
    match content with
    | inline content   => (toRead, overwrite buf 0 (slice content offset toRead))
    | chunked _ chunks => (toRead, chunks.readLoop offset toRead 0 (overwrite buf 0 (List.replicate toRead 0)))

def toVec : MemFileContent → List UInt8
  | inline content     => content
  | chunked len chunks => ((chunked len chunks).readAt 0 (List.replicate len 0)).snd

def resizeChunked (chunks : Chunks) (newLen : Nat) : MemFileContent :=
  let chunks := chunks.resize newLen
  if newLen ≤ MEM_FILE_INLINE_LIMIT then inline (chunked newLen chunks).toVec else chunked newLen chunks

def resize (content : MemFileContent) (newLen : Nat) : MemFileContent :=
  match content with
  | inline content =>
    if newLen ≤ MEM_FILE_INLINE_LIMIT then inline (Buffer.resize 0 content newLen)
    else resizeChunked (.split content) newLen
  | chunked _ chunks => resizeChunked chunks newLen

-- The end of the write, and the content. A slice whose end lies before its start, or after the content, panics.
def writeAt (content : MemFileContent) (offset : Nat) (buf : List UInt8) : Option (Nat × MemFileContent) :=
  let «end» := Usize.wrappingAdd offset buf.length
  let content := if «end» > content.len then content.resize «end» else content
  match content with
  | inline content =>
    if offset + buf.length = «end» ∧ «end» ≤ content.length then some («end», inline (overwrite content offset buf))
    else none
  | chunked len chunks => some («end», chunked len (chunks.writeLoop offset 0 buf))

end MemFileContent

-- The operations on the content of a file.
inductive ContentOp
  | fromSlice (content : List UInt8)
  | clear
  | len
  | toVec
  | readAt (offset : Nat) (buf : List UInt8)
  | writeAt (offset : Nat) (buf : List UInt8)
  | resize (newLen : Nat)

-- What an operation returns: a number, and the bytes of a buffer or a vector.
abbrev ContentResult := Nat × List UInt8

def MemFileContent.step (content : MemFileContent) : ContentOp → Option (ContentResult × MemFileContent)
  | .fromSlice bytes     => some ((0, []), .fromSlice bytes)
  | .clear               => some ((0, []), content.clear)
  | .len                 => some ((content.len, []), content)
  | .toVec               => some ((0, content.toVec), content)
  | .readAt offset buf   => some (content.readAt offset buf, content)
  | .writeAt offset buf  => (content.writeAt offset buf).map fun (n, content) => ((n, []), content)
  | .resize newLen       => some ((0, []), content.resize newLen)

-- A vector of bytes that grows with zeros. A vector has at most `isize::MAX` bytes.
namespace ByteVector

def maxLen : Nat := 2 ^ 63 - 1

def readAt (bytes : List UInt8) (offset : Nat) (buf : List UInt8) : Nat × List UInt8 :=
  let read := slice bytes offset buf.length
  (read.length, overwrite buf 0 read)

def writeAt (bytes : List UInt8) (offset : Nat) (buf : List UInt8) : List UInt8 :=
  overwrite (resize 0 bytes (max bytes.length (offset + buf.length))) offset buf

def bounded (result : ContentResult) (bytes : List UInt8) : Option (ContentResult × List UInt8) :=
  if bytes.length ≤ maxLen then some (result, bytes) else none

def step (bytes : List UInt8) : ContentOp → Option (ContentResult × List UInt8)
  | .fromSlice content  => bounded (0, []) content
  | .clear              => some ((0, []), [])
  | .len                => some ((bytes.length, []), bytes)
  | .toVec              => some ((0, bytes), bytes)
  | .readAt offset buf  => some (readAt bytes offset buf, bytes)
  | .writeAt offset buf => bounded (offset + buf.length, []) (writeAt bytes offset buf)
  | .resize newLen      => bounded (0, []) (resize 0 bytes newLen)

end ByteVector

end WllOs
