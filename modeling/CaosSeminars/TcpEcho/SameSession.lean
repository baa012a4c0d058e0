import CaosSeminars.TcpEcho.Session

/-!
# The two servers serve a connection identically

The session loops of `tcp/tcp_server.c` and `tcp-fork/tcp_server.c` differ in the test for
the quit command, and in the buffer they start with.  The tests look at different parts of
the buffer: the one at the first two bytes and the count, the other at the string.  On what
`read_message` leaves they agree (`isQuit_eq`), also when the chunk has a `NUL` in it,
because a `NUL` is what ends the string.

So the two loops, given the same results of `read` and `write`, stay in lockstep.

* `Alike` --- two sessions at the same place, with what the buffers have in common there.
* `Alike.step` --- one step in lockstep, one case for each step of the loop; the run is by
  the lockstep rule of `Library.Trace`.
* `session_of_session` --- a session of either server, under any answers of the kernel, is
  one of the other, with the same calls.
-/

namespace CaosSeminars
namespace TcpEcho

variable {server server' : Server} {msg msg' : Buffer} {chunk : List UInt8}
  {s s' t : Session} {a : Act}

/-! ## The two tests -/

/-- The string is `"q"` when the chunk is, or when the `NUL` behind the `'q'` is its own. -/
theorem takeWhile_eq_quitCommand :
    chunk.takeWhile (· ≠ 0) = quitCommand ↔
      chunk[0]? = some 113 ∧ (chunk.length = 1 ∨ chunk[1]? = some 0) := by
  match chunk with
  | [] => simp [quitCommand]
  | [b] =>
    by_cases hb : b = 0
    · simp [quitCommand, hb]
    · simp [quitCommand, hb]
  | b :: b' :: rest =>
    by_cases hb : b = 0
    · simp [quitCommand, hb]
    · by_cases hb' : b' = 0
      · simp [quitCommand, hb, hb']
      · simp [quitCommand, hb, hb']

/-- **The tests agree** on every chunk that is not empty, whatever is behind its terminator. -/
theorem isQuit_eq (server server' : Server) (h : Holds msg chunk) (h' : Holds msg' chunk)
    (hne : chunk ≠ []) :
    server.isQuit msg chunk.length = server'.isQuit msg' chunk.length := by
  have hall : ∀ (server : Server) (msg : Buffer), Holds msg chunk →
      (server.isQuit msg chunk.length ↔ chunk.takeWhile (· ≠ 0) = quitCommand) := by
    rintro (_ | _) msg hmsg
    · rw [takeWhile_eq_quitCommand]
      obtain ⟨rest, hrest⟩ := hmsg
      rw [Server.isQuit, hrest]
      match chunk, hne with
      | [b], _ => simp
      | b :: b' :: more, _ => simp
    · rw [Server.isQuit, hmsg.stringAt]
      exact decide_eq_true_iff
  exact Bool.eq_iff_iff.mpr ((hall server msg h).trans (hall server' msg' h').symm)

/-! ## Lockstep -/

/-- What a step asks of the kernel: the count of a `read`, or the bytes of a `write`. -/
inductive Call where
  | read (count : ℕ)
  | write (bytes : List UInt8)
  deriving DecidableEq

/-- The call that returns in a step. -/
def Session.call (s : Session) : Act → Option Call
  | .read _ => some (.read (BUFF_SIZE - 1))
  | .write _ =>
    match s.pc with
    | .writing len totalWritten => some (.write (s.msg.slice totalWritten len))
    | _ => none
  | .go => none

/-- Two sessions at the same place, with the same chunk in their buffers where it is still
looked at. -/
structure Alike (s s' : Session) : Prop where
  pc : s'.pc = s.pc
  received : s'.received = s.received
  sent : s'.sent = s.sent
  msg : ∀ n, s.pc = .received n ∨ (∃ total, s.pc = .writing n total) →
    ∃ chunk, chunk ≠ [] ∧ n = chunk.length ∧ Holds s.msg chunk ∧ Holds s'.msg chunk

theorem Alike.move (h : Alike s s') {pc : Pc} (hreceived : ∀ n, pc ≠ .received n)
    (hwriting : ∀ n total, pc ≠ .writing n total) : Alike { s with pc } { s' with pc } where
  pc := rfl
  received := h.received
  sent := h.sent
  msg n hn := by
    rcases hn with hn | ⟨total, hn⟩
    · exact absurd hn (hreceived n)
    · exact absurd hn (hwriting n total)

theorem Alike.writeNext (h : Alike s s') {len : ℕ} (total : ℕ) (sent : List UInt8)
    (hlen : ∃ chunk, chunk ≠ [] ∧ len = chunk.length ∧ Holds s.msg chunk ∧ Holds s'.msg chunk) :
    Alike ⟨writeNext len total, s.msg, s.received, sent⟩
      ⟨writeNext len total, s'.msg, s'.received, sent⟩ where
  pc := rfl
  received := h.received
  sent := rfl
  msg n hn := by
    unfold TcpEcho.writeNext at hn
    split at hn
    · rcases hn with hn | ⟨total, hn⟩
      · cases hn
      · cases hn
        exact hlen
    · rcases hn with hn | ⟨total, hn⟩ <;> cases hn

theorem Alike.kernelAnswers (h : Alike s s') (hok : kernelAnswers s a) :
    TcpEcho.kernelAnswers s' a := by
  cases a with
  | write r =>
    cases r with
    | count n =>
      rw [TcpEcho.kernelAnswers, h.pc]
      exact hok
    | _ => trivial
  | read r => cases r <;> exact hok
  | go => trivial

theorem Alike.call (h : Alike s s') : s'.call a = s.call a := by
  cases a with
  | write r =>
    rw [Session.call, Session.call, h.pc]
    split
    · rename_i len total hpc
      obtain ⟨chunk, -, rfl, hholds, hholds'⟩ := h.msg len (Or.inr ⟨total, hpc⟩)
      rw [hholds.slice le_rfl, hholds'.slice le_rfl]
    · rfl
  | _ => rfl

/-- **One step in lockstep**, one case for each step of the loop. -/
theorem Alike.step (h : Alike s s') (hok : TcpEcho.kernelAnswers s a)
    (hstep : s.step server a = some t) :
    ∃ t', s'.step server' a = some t' ∧ Alike t t' := by
  have hpc' := h.pc
  cases moves_of_step hok hstep with
  | chunk bs hpc hpos =>
    have hlt : bs.length < BUFF_SIZE := by
      have hle : bs.length ≤ BUFF_SIZE - 1 := hok.2
      have hsize : 0 < BUFF_SIZE := by decide
      omega
    have hread : onRead bs.length = .received bs.length := by
      rw [onRead, if_neg (by omega), Int.toNat_natCast]
    rw [hpc] at hpc'
    refine ⟨_, by simp only [Session.step, hpc']; rfl, ?_⟩
    simp only [readMessage, hread, ReadResult.received]
    refine ⟨rfl, congrArg (· ++ bs) h.received, h.sent, fun n hn => ?_⟩
    obtain rfl : bs.length = n := by
      rcases hn with hn | ⟨total, hn⟩
      · exact Pc.received.inj hn
      · cases hn
    exact ⟨bs, List.length_pos_iff.mp hpos, rfl, holds_terminate hlt, holds_terminate hlt⟩
  | @lost r hpc hr =>
    rw [hpc] at hpc'
    refine ⟨{ s' with pc := .disconnected }, ?_, h.move (by simp) (by simp)⟩
    cases r with
    | bytes bs =>
      obtain rfl : bs = [] := hr
      exact absurd hok.1 (by simp)
    | eof => simp [Session.step, hpc', readMessage, onRead, ReadResult.received]
    | error => simp [Session.step, hpc', readMessage, onRead, ReadResult.received]
  | quit hpc hquit =>
    rw [hpc] at hpc'
    obtain ⟨chunk, hne, rfl, hholds, hholds'⟩ := h.msg _ (Or.inl hpc)
    rw [isQuit_eq server server' hholds hholds' hne] at hquit
    refine ⟨{ s' with pc := .quit }, ?_, h.move (by simp) (by simp)⟩
    simp only [Session.step, hpc', hquit, if_true]
  | answer hpc hquit =>
    rw [hpc] at hpc'
    obtain ⟨chunk, hne, rfl, hholds, hholds'⟩ := h.msg _ (Or.inl hpc)
    rw [isQuit_eq server server' hholds hholds' hne] at hquit
    refine ⟨_, ?_, h.writeNext 0 s.sent ⟨chunk, hne, rfl, hholds, hholds'⟩⟩
    simp only [Session.step, hpc', if_neg hquit, h.sent]
  | @write len total n hpc =>
    rw [hpc] at hpc'
    obtain ⟨chunk, hne, hlen, hholds, hholds'⟩ := h.msg len (Or.inr ⟨total, hpc⟩)
    obtain ⟨hpos, hle⟩ : 0 < n ∧ n ≤ s.pc.asked := hok
    rw [hpc, Pc.asked] at hle
    have hhi : total + n ≤ chunk.length := by omega
    refine ⟨_, ?_, h.writeNext (total + n) _ ⟨chunk, hne, hlen, hholds, hholds'⟩⟩
    simp only [Session.step, hpc', h.sent, hholds.slice hhi, hholds'.slice hhi]
  | @fail len total r hpc hr =>
    rw [hpc] at hpc'
    refine ⟨{ s' with pc := .echoed }, ?_, h.move (by simp) (by simp)⟩
    cases r with
    | count n => exact absurd rfl (hr n)
    | zero => simp only [Session.step, hpc']
    | error => simp only [Session.step, hpc']
  | next hpc =>
    rw [hpc] at hpc'
    refine ⟨{ s' with pc := .reading }, ?_, h.move (by simp) (by simp)⟩
    simp only [Session.step, hpc']

/-- **The two servers serve a connection identically.**  Whatever `read` and `write` return, a
run of the session loop of one server is a run of that of the other: they make the same
calls with the same bytes, and are at the same place after each. -/
theorem session_of_session (server server' : Server) (junk junk' : Buffer) {as : List Act}
    (h : Trace (Session.step server) kernelAnswers (Session.init junk) as s) :
    ∃ s', Trace (Session.step server') kernelAnswers (Session.init junk') as s' ∧
      s'.pc = s.pc ∧ s'.received = s.received ∧ s'.sent = s.sent ∧
      observe (Session.step server') Session.call (Session.init junk') as =
        observe (Session.step server) Session.call (Session.init junk) as := by
  have hinit : Alike (Session.init junk) (Session.init junk') := by
    refine ⟨rfl, rfl, rfl, fun n hn => ?_⟩
    rcases hn with hn | ⟨total, hn⟩ <;> cases hn
  have hlock : ∀ s s' a t, Alike s s' → kernelAnswers s a → s.step server a = some t →
      kernelAnswers s' a ∧ Session.call s' a = Session.call s a ∧
        ∃ t', s'.step server' a = some t' ∧ Alike t t' := fun s s' a t hrel hok hstep =>
    ⟨hrel.kernelAnswers hok, hrel.call, hrel.step hok hstep⟩
  obtain ⟨s', htrace, hs', hcalls⟩ := h.lockstep hlock hinit
  exact ⟨s', htrace, hs'.pc, hs'.received, hs'.sent, hcalls⟩

/-- A chunk that starts with `"q\0"` ends the sessions of both, and what the buffers held
before does not matter. -/
theorem session_of_session_embeddedNul :
    ∃ s', Trace (Session.step .tcpFork) kernelAnswers (Session.init (CArray.replicate _ 7))
      [.read (.bytes [113, 0, 98]), .go] s' ∧ s'.pc = .quit := by
  obtain ⟨s, htrace, hpc⟩ := Trace.exists_of_eval (Session.step .tcp) kernelAnswers
    (fun s => s.pc = .quit) (Session.init (CArray.replicate _ 0))
    [.read (.bytes [113, 0, 98]), .go] (by decide +kernel)
  obtain ⟨s', htrace', hpc', -⟩ :=
    session_of_session .tcp .tcpFork (CArray.replicate _ 0) (CArray.replicate _ 7) htrace
  exact ⟨s', htrace', hpc'.trans (of_decide_eq_true hpc)⟩

end TcpEcho
end CaosSeminars
