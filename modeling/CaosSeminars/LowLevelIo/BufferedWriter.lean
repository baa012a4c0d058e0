import CaosSeminars.LowLevelIo.WriteRetry

/-!
# `BufferedWriter` of `buffered_perf.c`

A writer collects strings in a buffer of `capacity` bytes and hands the whole
buffer to `write_retry` when a string does not fit: the first part of the string
fills the buffer to the last byte, and the rest starts the next block.
`close_buffer` hands over what is left.

The state of a run is the writer and its descriptor.  Every function keeps the
state when a call of `write` in it is blocked, and then returns nothing.  The
ranges of `memcpy` in the buffer and the sizes handed to `write_retry` are kept
as history.

* `bufferedWrite`, `flush`, `closeBuffer` --- the functions of the source, on a `Run`.
* `session` --- a whole use of a writer: `init_buffer`, any number of strings,
  `close_buffer`.
-/

namespace CaosSeminars
namespace LowLevelIo

/-- A `char*` string: the bytes in front of the first `NUL`. -/
structure CString where
  bytes : List UInt8
  noNul : 0 ∉ bytes

/-- `strlen`. -/
def CString.strlen (string : CString) : ℕ := string.bytes.length

/-- `struct BufferedWriter`, whose `capacity` does not change. -/
structure BufferedWriter (capacity : ℕ) where
  size : ℕ
  buffer : CArray UInt8 capacity

/-- A run of a program that writes through a `BufferedWriter`. -/
structure Run (capacity : ℕ) where
  writer : BufferedWriter capacity
  fd : Fd
  /-- The ranges in the buffer that `memcpy` stored to. -/
  copies : List Span
  /-- The sizes handed to `write_retry`. -/
  flushed : List ℤ

variable {capacity : ℕ}

/-- `init_buffer`; `malloc` leaves the buffer as it is. -/
def initBuffer (junk : CArray UInt8 capacity) (answers : List WriteAnswer) : Run capacity where
  writer := ⟨0, junk⟩
  fd := Fd.new answers
  copies := []
  flushed := []

namespace Run

variable (s : Run capacity)

/-- `memcpy(writer->buffer + off, source, count)`. -/
def memcpy (off : ℕ) (source : List UInt8) (count : ℕ) : Run capacity :=
  { s with
    writer := { s.writer with buffer := s.writer.buffer.store off (source.take count) }
    copies := s.copies ++ [⟨off, count⟩] }

/-- `writer->size = size`. -/
def setSize (size : ℕ) : Run capacity := { s with writer := { s.writer with size := size } }

@[simp] theorem setSize_size (size : ℕ) : (s.setSize size).writer.size = size := rfl

/-- `write_retry(writer->fd, writer->buffer, size)`, whose result is not looked at. -/
def flush (size : ℕ) : Option Unit × Run capacity :=
  let r := writeRetry s.writer.buffer (toInt size) s.fd
  (r.1.map fun _ => (), { s with fd := r.2, flushed := s.flushed ++ [toInt size] })

/-- Goes on where a call has returned. -/
def andThen (r : Option Unit × Run capacity) (next : Run capacity → Option Unit × Run capacity) :
    Option Unit × Run capacity :=
  match r with
  | (none, s) => (none, s)
  | (some (), s) => next s

/-- `buffered_write`. -/
def bufferedWrite (string : CString) : Option Unit × Run capacity :=
  if capacity < string.strlen + s.writer.size then
    let firstPart := capacity - s.writer.size
    andThen ((s.memcpy s.writer.size string.bytes firstPart).flush capacity) fun s =>
      (some (), (s.memcpy 0 (string.bytes.drop firstPart) (string.strlen - firstPart)).setSize
        (string.strlen - firstPart))
  else
    (some (), (s.memcpy s.writer.size string.bytes string.strlen).setSize
      (s.writer.size + string.strlen))

/-- Calls of `buffered_write`, one after another. -/
def writeStrings : List CString → Run capacity → Option Unit × Run capacity
  | [], s => (some (), s)
  | string :: strings, s => andThen (s.bufferedWrite string) (writeStrings strings)

/-- `close_buffer`; the buffer is not used after its `free`. -/
def closeBuffer : Option Unit × Run capacity :=
  if 0 < s.writer.size then s.flush s.writer.size else (some (), s)

end Run

/-- A whole session: strings are written, then the buffer is closed. -/
def session (junk : CArray UInt8 capacity) (answers : List WriteAnswer) (strings : List CString) :
    Option Unit × Run capacity :=
  Run.andThen (Run.writeStrings strings (initBuffer junk answers)) Run.closeBuffer

end LowLevelIo
end CaosSeminars
