import CaosSeminars.Library.CArray
import CaosSeminars.Library.Trace

/-!
# One connection of the epoll echo server

`epoll/server_epoll.c` keeps an `fd_data` for each client: a descriptor, a
buffer, and two cursors.  `read_buff` appends what `read` returns behind
`buffer_end`; `write_buff` hands `write` the bytes between the cursors and sets
both back to zero when they meet.  This file translates the two helpers and the
client branch of `process_epoll_event`.

The branch is a small program: one step for each system call it makes, because
the kernel and the client act in between.  A local decision --- which bit of the
mask to look at next, whether a result is positive --- belongs to the step before
it.  `Pc` names the places where the handler waits for the world, and
`clientStep` is what it does with the answer.

The answers are arbitrary up to what `read` and `write` promise about counts
(`kernelAnswers`).  `Conn` adds the history that theorems speak of: the bytes
`read` has returned and those `write` has accepted.

* `readBuff`, `writeBuff` --- the helpers, with the parts of the buffer that the two system calls
  are given (`readSpan`, `writeSpan`) as definitions of their own.
* `clientStep` --- the branch; `Conn.step` --- the branch with its history.
* `Moves`, `moves_of_step` --- what one step can do, one constructor for each.  The proofs of the
  other modules split on it and do not unfold `Conn.step`.
-/

namespace CaosSeminars
namespace Epoll

/-- `BUFF_SIZE`. -/
def BUFF_SIZE : ℕ := 4096

/-- `fd_data`. -/
structure FdData where
  fd : ℤ
  buffer : CArray UInt8 BUFF_SIZE
  bufferBegin : ℤ
  bufferEnd : ℤ
  deriving DecidableEq

/-- What the accept branch makes of a new descriptor: zeroed memory from
`calloc`, then `fd`, `buffer_begin` and `buffer_end` assigned. -/
def FdData.new (fd : ℤ) : FdData := ⟨fd, CArray.replicate BUFF_SIZE 0, 0, 0⟩

/-- The bytes between the cursors: received and not yet echoed. -/
def FdData.pending (d : FdData) : List UInt8 :=
  d.buffer.slice d.bufferBegin.toNat d.bufferEnd.toNat

/-- What `read` returns: a positive count with the bytes it stored, zero, `-1`
with `EAGAIN` or `EWOULDBLOCK`, or `-1` with another `errno`. -/
inductive ReadResult where
  | bytes (bs : List UInt8)
  | eof
  | again
  | error
  deriving DecidableEq

/-- What `write` returns. -/
inductive WriteResult where
  | count (n : ℕ)
  | zero
  | again
  | error
  deriving DecidableEq

/-! ## The helpers -/

/-- The guard of `read_buff`, under which it returns `-1` and calls nothing. -/
def full (d : FdData) : Prop := (BUFF_SIZE : ℤ) ≤ d.bufferEnd

/-- The guard of `write_buff`, under which it returns `0` and calls nothing. -/
def nothingToWrite (d : FdData) : Prop := d.bufferEnd ≤ d.bufferBegin

instance (d : FdData) : Decidable (full d) := inferInstanceAs (Decidable (_ ≤ _))

instance (d : FdData) : Decidable (nothingToWrite d) := inferInstanceAs (Decidable (_ ≤ _))

/-- Where `read_buff` lets `read` store, and how much. -/
def readSpan (d : FdData) : Span := ⟨d.bufferEnd, BUFF_SIZE - d.bufferEnd⟩

/-- What `write_buff` hands to `write`. -/
def writeSpan (d : FdData) : Span := ⟨d.bufferBegin, d.bufferEnd - d.bufferBegin⟩

/-- `read_buff`, given what `read` answers if it is called. -/
def readBuff (d : FdData) (r : ReadResult) : FdData × ℤ :=
  if full d then (d, -1)
  else
    match r with
    | .bytes bs =>
      ({ d with
          buffer := d.buffer.store d.bufferEnd.toNat bs
          bufferEnd := d.bufferEnd + bs.length }, bs.length)
    | .eof => (d, 0)
    | .again => (d, 0)
    | .error => (d, -1)

/-- `write_buff`, given what `write` answers if it is called. -/
def writeBuff (d : FdData) (r : WriteResult) : FdData × ℤ :=
  if nothingToWrite d then (d, 0)
  else
    match r with
    | .count n =>
      if d.bufferBegin + n = d.bufferEnd then ({ d with bufferBegin := 0, bufferEnd := 0 }, n)
      else ({ d with bufferBegin := d.bufferBegin + n }, n)
    | .zero => (d, 0)
    | .again => (d, 0)
    | .error => (d, -1)

/-- The bytes that `read` returns in a call of `read_buff`. -/
def bytesRead (d : FdData) : ReadResult → List UInt8
  | .bytes bs => if full d then [] else bs
  | _ => []

/-- The bytes that `write` accepts in a call of `write_buff`. -/
def bytesWritten (d : FdData) : WriteResult → List UInt8
  | .count n => if nothingToWrite d then [] else d.pending.take n
  | _ => []

section Helpers

variable {d : FdData}

theorem readBuff_full (h : full d) (r : ReadResult) : readBuff d r = (d, -1) := if_pos h

theorem readBuff_bytes (h : ¬full d) (bs : List UInt8) :
    readBuff d (.bytes bs) =
      ({ d with
          buffer := d.buffer.store d.bufferEnd.toNat bs
          bufferEnd := d.bufferEnd + bs.length }, (bs.length : ℤ)) :=
  if_neg h

theorem readBuff_other {r : ReadResult} (h : ∀ bs, r ≠ .bytes bs) : (readBuff d r).1 = d := by
  by_cases hfull : full d
  · rw [readBuff_full hfull]
  · cases r <;> simp_all [readBuff]

theorem writeBuff_nothing (h : nothingToWrite d) (w : WriteResult) : writeBuff d w = (d, 0) :=
  if_pos h

theorem writeBuff_count (h : ¬nothingToWrite d) (n : ℕ) :
    writeBuff d (.count n) =
      if d.bufferBegin + n = d.bufferEnd then ({ d with bufferBegin := 0, bufferEnd := 0 }, (n : ℤ))
      else ({ d with bufferBegin := d.bufferBegin + n }, (n : ℤ)) :=
  if_neg h

theorem writeBuff_other {w : WriteResult} (h : ∀ n, w ≠ .count n) : (writeBuff d w).1 = d := by
  by_cases hnone : nothingToWrite d
  · rw [writeBuff_nothing hnone]
  · cases w <;> simp_all [writeBuff]

end Helpers

/-! ## The client branch of `process_epoll_event` -/

/-- The bits of `event->events` that the server looks at. -/
structure Mask where
  epollIn : Bool
  epollOut : Bool
  epollErr : Bool
  epollHup : Bool
  epollRdhup : Bool
  deriving DecidableEq

/-- `mask & (EPOLLERR | EPOLLHUP | EPOLLRDHUP)`. -/
def Mask.hangup (m : Mask) : Bool := m.epollErr || m.epollHup || m.epollRdhup

/-- Where the handler of a connection is. -/
inductive Pc where
  /-- Not inside `process_epoll_event` for this connection. -/
  | waiting
  /-- The top of `while (1)`: `read_buff` comes next. -/
  | reading (mask : Mask)
  /-- After a positive `read_result`: `epoll_ctl(EPOLL_CTL_MOD)` with `EPOLLOUT`
  comes next. -/
  | rearming (mask : Mask)
  /-- `mask & EPOLLOUT` holds: `write_buff` comes next. -/
  | writing
  /-- The cursors have met: `epoll_ctl(EPOLL_CTL_MOD)` without `EPOLLOUT` comes
  next. -/
  | disarming
  /-- `close_connection` was called. -/
  | closed
  deriving DecidableEq

/-- After the `EPOLLIN` part: is there an `EPOLLOUT` part? -/
def afterReads (m : Mask) : Pc := if m.epollOut then .writing else .waiting

/-- The handler starts on an event. -/
def onEvent (m : Mask) : Pc :=
  if m.hangup then .closed else if m.epollIn then .reading m else afterReads m

/-- What the loop does with `read_result`. -/
def onRead (m : Mask) (readResult : ℤ) : Pc :=
  if 0 < readResult then .rearming m else if readResult = 0 then afterReads m else .closed

/-- What follows `write_result`. -/
def onWrite (d : FdData) (writeResult : ℤ) : Pc :=
  if writeResult < 0 then .closed
  else if d.bufferBegin = d.bufferEnd then .disarming else .waiting

/-- An event is handed over, or a system call of the handler returns. -/
inductive Act where
  | event (mask : Mask)
  | read (r : ReadResult)
  | rearm
  | write (r : WriteResult)
  | disarm
  deriving DecidableEq

/-- One step of the client branch on the connection's `fd_data`. -/
def clientStep (pc : Pc) (d : FdData) (a : Act) : Option (Pc × FdData) :=
  match pc, a with
  | .waiting, .event m => some (onEvent m, d)
  | .reading m, .read r => some (onRead m (readBuff d r).2, (readBuff d r).1)
  | .rearming m, .rearm => some (.reading m, d)
  | .writing, .write r => some (onWrite (writeBuff d r).1 (writeBuff d r).2, (writeBuff d r).1)
  | .disarming, .disarm => some (.waiting, d)
  | _, _ => none

/-- A connection with its history. -/
structure Conn where
  pc : Pc
  data : FdData
  /-- The bytes that `read` has returned on this connection. -/
  received : List UInt8
  /-- The bytes that `write` has accepted on this connection. -/
  sent : List UInt8
  deriving DecidableEq

/-- A connection that was just accepted. -/
def Conn.init (fd : ℤ) : Conn := ⟨.waiting, FdData.new fd, [], []⟩

/-- The bytes a step receives. -/
def stepReceived (d : FdData) : Act → List UInt8
  | .read r => bytesRead d r
  | _ => []

/-- The bytes a step sends. -/
def stepSent (d : FdData) : Act → List UInt8
  | .write r => bytesWritten d r
  | _ => []

/-- One step of a connection. -/
def Conn.step (c : Conn) (a : Act) : Option Conn :=
  (clientStep c.pc c.data a).map fun x =>
    ⟨x.1, x.2, c.received ++ stepReceived c.data a, c.sent ++ stepSent c.data a⟩

/-- What `read` promises `read_buff`: a positive count is at most the count asked
for. -/
def readPromise (d : FdData) : ReadResult → Prop
  | .bytes bs => ¬full d → 0 < bs.length ∧ (bs.length : ℤ) ≤ (readSpan d).count
  | _ => True

/-- What `write` promises `write_buff`. -/
def writePromise (d : FdData) : WriteResult → Prop
  | .count n => ¬nothingToWrite d → 0 < n ∧ (n : ℤ) ≤ (writeSpan d).count
  | _ => True

/-- What the kernel promises a connection. -/
def kernelAnswers (c : Conn) : Act → Prop
  | .read r => readPromise c.data r
  | .write w => writePromise c.data w
  | _ => True

instance (d : FdData) : (r : ReadResult) → Decidable (readPromise d r)
  | .bytes _ => inferInstanceAs (Decidable (¬_ → _ ∧ _))
  | .eof | .again | .error => inferInstanceAs (Decidable True)

instance (d : FdData) : (w : WriteResult) → Decidable (writePromise d w)
  | .count _ => inferInstanceAs (Decidable (¬_ → _ ∧ _))
  | .zero | .again | .error => inferInstanceAs (Decidable True)

instance (c : Conn) : (a : Act) → Decidable (kernelAnswers c a)
  | .read r => inferInstanceAs (Decidable (readPromise c.data r))
  | .write w => inferInstanceAs (Decidable (writePromise c.data w))
  | .event _ | .rearm | .disarm => inferInstanceAs (Decidable True)

/-- What one step of a connection can do, one case for each step of the branch. -/
inductive Moves (c : Conn) : Act → Conn → Prop
  | event (m : Mask) (hpc : c.pc = .waiting) : Moves c (.event m) { c with pc := onEvent m }
  | read {m : Mask} (r : ReadResult) (hpc : c.pc = .reading m) :
      Moves c (.read r)
        ⟨onRead m (readBuff c.data r).2, (readBuff c.data r).1,
          c.received ++ bytesRead c.data r, c.sent⟩
  | rearm {m : Mask} (hpc : c.pc = .rearming m) : Moves c .rearm { c with pc := .reading m }
  | write (r : WriteResult) (hpc : c.pc = .writing) :
      Moves c (.write r)
        ⟨onWrite (writeBuff c.data r).1 (writeBuff c.data r).2, (writeBuff c.data r).1,
          c.received, c.sent ++ bytesWritten c.data r⟩
  | disarm (hpc : c.pc = .disarming) : Moves c .disarm { c with pc := .waiting }

/-- The inversion of `Conn.step`: later proofs split on `Moves`. -/
theorem moves_of_step {c c' : Conn} {a : Act} (h : c.step a = some c') : Moves c a c' := by
  obtain ⟨⟨pc', d'⟩, hstep, rfl⟩ := Option.map_eq_some_iff.mp h
  simp only [clientStep] at hstep
  split at hstep
  · rename_i m hpc
    obtain ⟨rfl, rfl⟩ := Prod.mk.inj (Option.some.inj hstep)
    simpa [stepReceived, stepSent] using Moves.event m hpc
  · rename_i m r hpc
    obtain ⟨rfl, rfl⟩ := Prod.mk.inj (Option.some.inj hstep)
    simpa [stepReceived, stepSent] using Moves.read r hpc
  · rename_i m hpc
    obtain ⟨rfl, rfl⟩ := Prod.mk.inj (Option.some.inj hstep)
    simpa [stepReceived, stepSent] using Moves.rearm hpc
  · rename_i r hpc
    obtain ⟨rfl, rfl⟩ := Prod.mk.inj (Option.some.inj hstep)
    simpa [stepReceived, stepSent] using Moves.write r hpc
  · rename_i hpc
    obtain ⟨rfl, rfl⟩ := Prod.mk.inj (Option.some.inj hstep)
    simpa [stepReceived, stepSent] using Moves.disarm hpc
  · exact absurd hstep (by simp)

end Epoll
end CaosSeminars
