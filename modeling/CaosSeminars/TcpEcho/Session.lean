import CaosSeminars.Library.CArray
import CaosSeminars.Library.Trace
import Mathlib.Data.List.TakeWhile

/-!
# The session loop of the TCP echo servers

`tcp/tcp_server.c` and `tcp-fork/tcp_server.c` serve a connection by the same loop:
read a chunk, end it with a `NUL`, look whether it is the quit command, write it
back.  They differ in how they look, and that is all that `Server` says.

The loop is a small program with one step for each system call; the test for the
quit command and the lines printed are steps of their own, because they are where
`msg` is inspected as a string.  `write_message` gives up on the first result that
is not positive, and the loop goes on to the next `read` all the same.

`Session` adds the history that theorems speak of: the bytes `read` has returned
and those `write` has accepted.

* `Moves`, `moves_of_step` --- what one step can do, one constructor for each; the proofs
  split on it.
* `Holds` --- an array that starts with given bytes and a `NUL`; `holds_terminate` is what
  `read_message` leaves, and `Holds.stringAt_eq` how it reads as a string.
-/

namespace CaosSeminars
namespace TcpEcho

/-- `BUFF_SIZE`, of the servers and of the client. -/
def BUFF_SIZE : ℕ := 4096

/-- A `char[BUFF_SIZE]`. -/
abbrev Buffer := CArray UInt8 BUFF_SIZE

/-- The string at the start of an array, as `printf`, `strlen` and `strcmp` find it. -/
def stringAt (buff : Buffer) : List UInt8 := buff.toList.takeWhile (· ≠ 0)

/-- `"q"`. -/
def quitCommand : List UInt8 := [113]

/-- Stores bytes at the start of an array and a `NUL` behind them. -/
def terminate (buff : Buffer) (bs : List UInt8) : Buffer := (buff.store 0 bs).store bs.length [0]

/-- What `read` returns; the code does not look at `errno`. -/
inductive ReadResult where
  | bytes (bs : List UInt8)
  | eof
  | error
  deriving DecidableEq

/-- What `write` returns. -/
inductive WriteResult where
  | count (n : ℕ)
  | zero
  | error
  deriving DecidableEq

/-! ## The helpers -/

/-- `read_message`, given what `read` answers. -/
def readMessage (buff : Buffer) : ReadResult → Buffer × ℤ
  | .bytes bs => (terminate buff bs, bs.length)
  | .eof => (buff, 0)
  | .error => (buff, -1)

/-- The two servers. -/
inductive Server where
  /-- `tcp/tcp_server.c`. -/
  | tcp
  /-- `tcp-fork/tcp_server.c`. -/
  | tcpFork
  deriving DecidableEq

/-- The test for the quit command. -/
def Server.isQuit (server : Server) (msg : Buffer) (bytesRead : ℕ) : Bool :=
  match server with
  | .tcp => msg.toList[0]? = some 113 && (bytesRead = 1 || msg.toList[1]? = some 0)
  | .tcpFork => stringAt msg = quitCommand

/-! ## The loop -/

/-- Where the loop is. -/
inductive Pc where
  /-- `read_message` comes next. -/
  | reading
  /-- `bytes_read` is positive: the test for the quit command comes next. -/
  | received (bytesRead : ℕ)
  /-- In `write_message`, with something left to write. -/
  | writing (len totalWritten : ℕ)
  /-- `write_message` has returned: `Echoed back` is printed next. -/
  | echoed
  /-- The branch of the quit command, which leaves the loop. -/
  | quit
  /-- The branch of `bytes_read <= 0`, which leaves the loop. -/
  | disconnected
  deriving DecidableEq

/-- The loop was left, and the connection is shut down. -/
def Pc.closed : Pc → Bool
  | .quit | .disconnected => true
  | _ => false

/-- The condition of the loop of `write_message`. -/
def writeNext (len totalWritten : ℕ) : Pc :=
  if totalWritten < len then .writing len totalWritten else .echoed

/-- What the loop does with `bytes_read`. -/
def onRead (bytesRead : ℤ) : Pc :=
  if bytesRead ≤ 0 then .disconnected else .received bytesRead.toNat

/-- A session with its history. -/
structure Session where
  pc : Pc
  msg : Buffer
  /-- The bytes that `read` has returned. -/
  received : List UInt8
  /-- The bytes that `write` has accepted. -/
  sent : List UInt8
  deriving DecidableEq

/-- A session before the first `read`; `msg` is not initialised. -/
def Session.init (junk : Buffer) : Session := ⟨.reading, junk, [], []⟩

/-- A system call of the loop returns, or the loop goes on by itself. -/
inductive Act where
  | read (r : ReadResult)
  | write (r : WriteResult)
  | go
  deriving DecidableEq

/-- The bytes that `read` returns. -/
def ReadResult.received : ReadResult → List UInt8
  | .bytes bs => bs
  | _ => []

/-- One step of the loop. -/
def Session.step (server : Server) (s : Session) (a : Act) : Option Session :=
  match s.pc, a with
  | .reading, .read r =>
    some { s with
      pc := onRead (readMessage s.msg r).2
      msg := (readMessage s.msg r).1
      received := s.received ++ r.received }
  | .received n, .go =>
    some { s with pc := if server.isQuit s.msg n then .quit else writeNext n 0 }
  | .writing len total, .write r =>
    match r with
    | .count n =>
      some { s with
        pc := writeNext len (total + n)
        sent := s.sent ++ s.msg.slice total (total + n) }
    | _ => some { s with pc := .echoed }
  | .echoed, .go => some { s with pc := .reading }
  | _, _ => none

/-- The count that `write_message` passes to `write`. -/
def Pc.asked : Pc → ℕ
  | .writing len totalWritten => len - totalWritten
  | _ => 0

/-- What the kernel promises: a positive result of `read` or `write` is at most the count
that was asked for. -/
def kernelAnswers (s : Session) : Act → Prop
  | .read (.bytes bs) => 0 < bs.length ∧ bs.length ≤ BUFF_SIZE - 1
  | .write (.count n) => 0 < n ∧ n ≤ s.pc.asked
  | _ => True

instance (s : Session) : (a : Act) → Decidable (kernelAnswers s a)
  | .read (.bytes _) => inferInstanceAs (Decidable (_ ∧ _))
  | .write (.count _) => inferInstanceAs (Decidable (_ ∧ _))
  | .read .eof | .read .error | .write .zero | .write .error | .go =>
    inferInstanceAs (Decidable True)

/-- What one step of a session can do, one case for each step of the loop. -/
inductive Moves (server : Server) (s : Session) : Act → Session → Prop
  | chunk (bs : List UInt8) (hpc : s.pc = .reading) (hpos : 0 < bs.length) :
      Moves server s (.read (.bytes bs))
        ⟨.received bs.length, terminate s.msg bs, s.received ++ bs, s.sent⟩
  | lost {r : ReadResult} (hpc : s.pc = .reading) (hr : r.received = []) :
      Moves server s (.read r) { s with pc := .disconnected }
  | quit {n : ℕ} (hpc : s.pc = .received n) (hquit : server.isQuit s.msg n) :
      Moves server s .go { s with pc := .quit }
  | answer {n : ℕ} (hpc : s.pc = .received n) (hquit : ¬server.isQuit s.msg n) :
      Moves server s .go { s with pc := writeNext n 0 }
  | write {len total : ℕ} (n : ℕ) (hpc : s.pc = .writing len total) :
      Moves server s (.write (.count n))
        ⟨writeNext len (total + n), s.msg, s.received, s.sent ++ s.msg.slice total (total + n)⟩
  | fail {len total : ℕ} {r : WriteResult} (hpc : s.pc = .writing len total)
      (hr : ∀ n, r ≠ .count n) : Moves server s (.write r) { s with pc := .echoed }
  | next (hpc : s.pc = .echoed) : Moves server s .go { s with pc := .reading }

/-- The inversion of `Session.step`: later proofs split on `Moves`. -/
theorem moves_of_step {server : Server} {s s' : Session} {a : Act} (hok : kernelAnswers s a)
    (h : s.step server a = some s') : Moves server s a s' := by
  simp only [Session.step] at h
  split at h
  · rename_i r hpc
    obtain rfl := Option.some.inj h
    cases r with
    | bytes bs =>
      have hread : onRead bs.length = .received bs.length := by
        have hpos := hok.1
        rw [onRead, if_neg (by omega), Int.toNat_natCast]
      simp only [readMessage, hread]
      exact Moves.chunk bs hpc hok.1
    | eof => simpa [readMessage, onRead, ReadResult.received] using Moves.lost hpc rfl
    | error => simpa [readMessage, onRead, ReadResult.received] using Moves.lost hpc rfl
  · rename_i n hpc
    obtain rfl := Option.some.inj h
    split
    · exact Moves.quit hpc ‹_›
    · exact Moves.answer hpc ‹_›
  · rename_i len total r hpc
    cases r with
    | count n =>
      obtain rfl := Option.some.inj h
      exact Moves.write n hpc
    | zero =>
      obtain rfl := Option.some.inj h
      exact Moves.fail hpc (by simp)
    | error =>
      obtain rfl := Option.some.inj h
      exact Moves.fail hpc (by simp)
  · rename_i hpc
    obtain rfl := Option.some.inj h
    exact Moves.next hpc
  · cases h

/-- The bytes that `read` returns in a step. -/
def Act.received : Act → List UInt8
  | .read r => r.received
  | _ => []

/-- The bytes that `write` accepts in a step. -/
def Session.accepted (s : Session) : Act → List UInt8
  | .write (.count n) =>
    match s.pc with
    | .writing _ totalWritten => s.msg.slice totalWritten (totalWritten + n)
    | _ => []
  | _ => []

theorem Moves.history {server : Server} {s s' : Session} {a : Act} (hm : Moves server s a s') :
    s'.received = s.received ++ a.received ∧ s'.sent = s.sent ++ s.accepted a := by
  cases hm with
  | chunk bs hpc hpos => exact ⟨rfl, (List.append_nil _).symm⟩
  | lost hpc hr => exact ⟨by simp [Act.received, hr], (List.append_nil _).symm⟩
  | quit hpc hquit => exact ⟨(List.append_nil _).symm, (List.append_nil _).symm⟩
  | answer hpc hquit => exact ⟨(List.append_nil _).symm, (List.append_nil _).symm⟩
  | write n hpc => exact ⟨(List.append_nil _).symm, by simp [Session.accepted, hpc]⟩
  | @fail len total r hpc hr =>
    refine ⟨(List.append_nil _).symm, ?_⟩
    cases r with
    | count n => exact absurd rfl (hr n)
    | _ => exact (List.append_nil _).symm
  | next hpc => exact ⟨(List.append_nil _).symm, (List.append_nil _).symm⟩

/-! ## Strings in arrays -/

/-- The array starts with these bytes and a `NUL` behind them. -/
def Holds (buff : Buffer) (bs : List UInt8) : Prop := ∃ rest, buff.toList = bs ++ 0 :: rest

variable {buff : Buffer} {bs : List UInt8} {lo hi : ℕ}

/-- **What `terminate` leaves.** -/
theorem holds_terminate (h : bs.length < BUFF_SIZE) : Holds (terminate buff bs) bs := by
  refine ⟨buff.toList.drop (bs.length + 1), ?_⟩
  have hfirst : (buff.store 0 bs).toList = bs ++ buff.toList.drop bs.length := by
    rw [buff.toList_store (by omega), List.take_zero, List.nil_append, Nat.zero_add]
  have hfit : bs.length + [(0 : UInt8)].length ≤ BUFF_SIZE := h
  rw [terminate, CArray.toList_store _ hfit, hfirst, List.take_left' rfl,
    List.append_assoc, ← List.drop_drop, List.drop_left' rfl, List.drop_drop]
  rfl

theorem Holds.nul_mem (h : Holds buff bs) : 0 ∈ buff.toList := by
  obtain ⟨rest, hrest⟩ := h
  rw [hrest]
  exact List.mem_append_right bs List.mem_cons_self

theorem Holds.length_lt (h : Holds buff bs) : bs.length < BUFF_SIZE := by
  obtain ⟨rest, hrest⟩ := h
  have hlen := buff.length_eq
  rw [hrest, List.length_append, List.length_cons] at hlen
  omega

/-- Parts of the array are parts of what it holds. -/
theorem Holds.slice (h : Holds buff bs) (hhi : hi ≤ bs.length) :
    buff.slice lo hi = (bs.drop lo).take (hi - lo) := by
  obtain ⟨rest, hrest⟩ := h
  rw [CArray.slice, hrest, ← List.drop_take, ← List.drop_take,
    List.take_append_of_le_length hhi]

theorem Holds.stringAt (h : Holds buff bs) : stringAt buff = bs.takeWhile (· ≠ 0) := by
  obtain ⟨rest, hrest⟩ := h
  rw [TcpEcho.stringAt, hrest, List.takeWhile_append]
  split
  · rename_i hall
    rw [List.takeWhile_cons_of_neg (by simp), List.append_nil]
    exact ((List.takeWhile_prefix _).eq_of_length hall).symm
  · rfl

theorem Holds.stringAt_eq (h : Holds buff bs) (hnul : 0 ∉ bs) : TcpEcho.stringAt buff = bs := by
  rw [h.stringAt, List.takeWhile_eq_self_iff]
  intro b hb
  exact decide_eq_true fun hzero => hnul (hzero ▸ hb)

/-- Up to its `strlen` an array has no `NUL`. -/
theorem nul_notMem_slice (h : hi ≤ (stringAt buff).length) : 0 ∉ buff.slice 0 hi := by
  have hstring : stringAt buff <+: buff.toList := List.takeWhile_prefix _
  have hslice : buff.slice 0 hi <+: stringAt buff := by
    rw [CArray.slice, List.drop_zero, Nat.sub_zero]
    refine List.prefix_of_prefix_length_le (List.take_prefix hi _) hstring ?_
    rw [List.length_take]
    omega
  intro hmem
  have hne := List.mem_takeWhile_imp (hslice.subset hmem)
  simp at hne

theorem length_stringAt_le : (stringAt buff).length ≤ BUFF_SIZE :=
  (List.takeWhile_prefix _).length_le.trans (le_of_eq buff.length_eq)

end TcpEcho
end CaosSeminars
