import CaosSeminars.Library.Pipe
import CaosSeminars.TcpEcho.Session

/-!
# A session is a pipe

A chunk that `read` returns is fed into the pipe, what `write` accepts is sent, and
when `write_message` gives up the rest of the chunk is lost: the loop overwrites it
with the next chunk.  So the client gets the beginning of what it sent as long as
`write` accepts nothing after a failure, and a stream with a hole in it as soon as
it does.

Nothing is lost without a failure, and `msg` holds the chunk and a `NUL` behind it
whenever it is inspected as a string.

* `Phase` --- what the session holds at each place of the loop; `Phase.moves` is one step.
* `Relays` --- a session and the pipe of `Library.Pipe` that it is; `relays_of_trace` for a
  run.
* `session_echoes_beginning` --- both halves, for both servers.
-/

namespace CaosSeminars
namespace TcpEcho

/-- What a system call does to the chunk that is held. -/
def Act.mark : Act → Option Mark
  | .write (.count _) => some .sent
  | .write _ => some .lost
  | _ => none

/-- The marks of a run, in order. -/
def marks (as : List Act) : List Mark := as.filterMap Act.mark

/-- Once `write` has returned `0` or `-1`, it accepts nothing more. -/
def StaysBroken (as : List Act) : Prop := NothingAfterLoss (marks as)

instance (as : List Act) : Decidable (StaysBroken as) :=
  inferInstanceAs (Decidable (NothingAfterLoss _))

/-- `msg` is about to be printed or compared. -/
def Pc.inspects : Pc → Bool
  | .received _ | .echoed => true
  | _ => false

variable {server : Server} {msg : Buffer} {chunk held : List UInt8} {s s' : Session} {a : Act}
  {ms : List Mark} {len total : ℕ}

/-! ## One step -/

/-- What is held, by the place in the loop. -/
def Phase (s : Session) (held : List UInt8) : Prop :=
  match s.pc with
  | .reading => held = []
  | .received n => ∃ chunk, Holds s.msg chunk ∧ n = chunk.length ∧ held = chunk ∧ chunk ≠ []
  | .writing len total =>
    ∃ chunk, Holds s.msg chunk ∧ len = chunk.length ∧ held = chunk.drop total ∧ total < len
  | .echoed => held = [] ∧ ∃ chunk, Holds s.msg chunk
  | .quit | .disconnected => True

/-- What is held when `total` bytes of the chunk are written. -/
theorem phase_writeNext {received sent : List UInt8} (h : Holds msg chunk)
    (hlen : len = chunk.length) (htotal : total ≤ len) :
    Phase ⟨writeNext len total, msg, received, sent⟩ (chunk.drop total) := by
  by_cases hlt : total < len
  · rw [writeNext, if_pos hlt]
    exact ⟨chunk, h, hlen, rfl, hlt⟩
  · rw [writeNext, if_neg hlt]
    exact ⟨List.drop_of_length_le (by omega), chunk, h⟩

/-- **What a step does to the chunk that is held.**  A chunk is read when nothing is held;
what is written is the front of what is held; when `write` fails, all of it is gone. -/
theorem Phase.moves (h : Phase s held) (hok : kernelAnswers s a) (hm : Moves server s a s') :
    ∃ held', Phase s' held' ∧
      ((a.mark = none ∧ s.accepted a = [] ∧ held' = held ++ a.received) ∨
        (a.mark = some .sent ∧ a.received = [] ∧ held = s.accepted a ++ held' ∧
          s.accepted a ≠ []) ∨
        (a.mark = some .lost ∧ a.received = [] ∧ s.accepted a = [] ∧ held ≠ [] ∧ held' = [])) := by
  cases hm with
  | chunk bs hpc hpos =>
    rw [Phase, hpc] at h
    obtain rfl : held = [] := h
    have hlt : bs.length < BUFF_SIZE := by
      have hle : bs.length ≤ BUFF_SIZE - 1 := hok.2
      unfold BUFF_SIZE at *
      omega
    exact ⟨bs, ⟨bs, holds_terminate hlt, rfl, rfl, List.ne_nil_of_length_pos hpos⟩,
      Or.inl ⟨rfl, rfl, rfl⟩⟩
  | lost hpc hr =>
    refine ⟨held, trivial, Or.inl ⟨rfl, rfl, ?_⟩⟩
    rw [Act.received, hr, List.append_nil]
  | quit hpc hquit => exact ⟨held, trivial, Or.inl ⟨rfl, rfl, (List.append_nil held).symm⟩⟩
  | @answer n hpc hquit =>
    rw [Phase, hpc] at h
    obtain ⟨chunk, hholds, rfl, rfl, -⟩ := h
    exact ⟨held, phase_writeNext hholds rfl (Nat.zero_le _),
      Or.inl ⟨rfl, rfl, (List.append_nil held).symm⟩⟩
  | @write len total n hpc =>
    rw [Phase, hpc] at h
    obtain ⟨chunk, hholds, hlen, rfl, hlt⟩ := h
    obtain ⟨hpos, hle⟩ := hok
    rw [hpc, Pc.asked] at hle
    have hbound := hholds.length_lt
    have haccepted : s.accepted (.write (.count n)) = s.msg.slice total (total + n) := by
      rw [Session.accepted, hpc]
    refine ⟨chunk.drop (total + n), phase_writeNext hholds hlen (by omega),
      Or.inr (Or.inl ⟨rfl, rfl, ?_, ?_⟩)⟩
    · rw [haccepted, hholds.slice (by omega), Nat.add_sub_cancel_left, ← List.drop_drop,
        List.take_append_drop]
    · rw [haccepted]
      exact s.msg.slice_ne_nil (by omega) (by omega)
  | @fail len total r hpc hr =>
    rw [Phase, hpc] at h
    obtain ⟨chunk, hholds, hlen, rfl, hlt⟩ := h
    have hne : chunk.drop total ≠ [] := by
      rw [Ne, List.drop_eq_nil_iff]
      omega
    refine ⟨[], ⟨rfl, chunk, hholds⟩, Or.inr (Or.inr ?_)⟩
    cases r with
    | count n => exact absurd rfl (hr n)
    | _ => exact ⟨rfl, rfl, rfl, hne, rfl⟩
  | next hpc =>
    rw [Phase, hpc] at h
    exact ⟨held, h.1, Or.inl ⟨rfl, rfl, (List.append_nil held).symm⟩⟩

/-! ## Runs -/

/-- The session has come here with the marks `ms`. -/
def Relays (ms : List Mark) (s : Session) : Prop :=
  ∃ held, Pipe.Runs ms ⟨s.sent, held, s.received⟩ ∧ Phase s held

theorem relays_init (junk : Buffer) : Relays [] (Session.init junk) := ⟨[], Pipe.Runs.empty, rfl⟩

/-- One step of the loop is one step of the pipe. -/
theorem Relays.moves (h : Relays ms s) (hok : kernelAnswers s a) (hm : Moves server s a s') :
    Relays (ms ++ (Act.mark a).toList) s' := by
  obtain ⟨held, hruns, hphase⟩ := h
  obtain ⟨held', hphase', hcases⟩ := hphase.moves hok hm
  refine ⟨held', ?_, hphase'⟩
  rw [hm.history.1, hm.history.2]
  rcases hcases with ⟨hmark, haccepted, rfl⟩ | ⟨hmark, hreceived, rfl, hne⟩ |
    ⟨hmark, hreceived, haccepted, hne, rfl⟩
  · rw [hmark, haccepted, Option.toList_none, List.append_nil, List.append_nil]
    exact hruns.feed a.received
  · rw [hmark, hreceived, List.append_nil]
    exact hruns.send hne
  · rw [hmark, hreceived, haccepted, List.append_nil, List.append_nil]
    rw [← List.append_nil held] at hruns
    exact hruns.lose hne

theorem relays_of_trace {junk : Buffer} {as : List Act}
    (h : Trace (Session.step server) kernelAnswers (Session.init junk) as s) :
    Relays (marks as) s := by
  have hinit : Relays (marks []) (Session.init junk) := relays_init junk
  refine h.history (P := fun pre s => Relays (marks pre) s) (fun pre s a t hs hok hstep => ?_) hinit
  have hmoves := hs.moves hok (moves_of_step hok hstep)
  rw [marks, List.filterMap_append]
  cases hmark : a.mark <;> simpa [hmark, marks] using hmoves

/-- Wherever `msg` is inspected, it holds a chunk. -/
theorem Relays.holds (h : Relays ms s) (hpc : s.pc.inspects) : ∃ chunk, Holds s.msg chunk := by
  obtain ⟨held, -, hphase⟩ := h
  rw [Phase] at hphase
  split at hphase
  · simp_all [Pc.inspects]
  · obtain ⟨chunk, hholds, -⟩ := hphase
    exact ⟨chunk, hholds⟩
  · simp_all [Pc.inspects]
  · exact hphase.2
  · simp_all [Pc.inspects]
  · simp_all [Pc.inspects]

/-- **When the output of a session is the beginning of its input.**  As long as `write`
accepts nothing after a failure, the bytes it has accepted are at every moment the
beginning of those `read` has returned; as soon as it accepts something, bytes in the
middle are missing.  Wherever `msg` is inspected as a string, there is a `NUL` inside
the array. -/
theorem session_echoes_beginning (server : Server) (junk : Buffer) {as : List Act}
    (h : Trace (Session.step server) kernelAnswers (Session.init junk) as s) :
    (StaysBroken as → s.sent <+: s.received) ∧ (¬StaysBroken as → Hole s.sent s.received) ∧
      (s.pc.inspects → 0 ∈ s.msg.toList) := by
  obtain ⟨held, hruns, -⟩ := relays_of_trace h
  refine ⟨hruns.sent_isPrefix, hruns.hole, fun hpc => ?_⟩
  obtain ⟨chunk, hholds⟩ := (relays_of_trace h).holds hpc
  exact hholds.nul_mem

/-- An array of zeros. -/
def zeros : Buffer := CArray.replicate BUFF_SIZE 0

/-- Two chunks, the first of them written in two parts. -/
def twoChunks : List Act :=
  [.read (.bytes [97, 98, 99]), .go, .write (.count 2), .write (.count 1), .go,
    .read (.bytes [100]), .go, .write (.count 1), .go]

/-- Nothing fails, and all is echoed. -/
theorem session_echoes_beginning_twoChunks :
    ∃ s, Trace (Session.step .tcp) kernelAnswers (Session.init zeros) twoChunks s ∧
      s.sent = [97, 98, 99, 100] ∧ s.sent <+: s.received := by
  obtain ⟨s, h, hp⟩ := Trace.exists_of_eval (Session.step .tcp) kernelAnswers
    (fun s => s.sent = [97, 98, 99, 100]) (Session.init zeros) twoChunks (by decide +kernel)
  exact ⟨s, h, of_decide_eq_true hp, (session_echoes_beginning .tcp zeros h).1 (by decide)⟩

/-- The second `write` of the first chunk fails, and the next chunk is written. -/
def failedWrite : List Act :=
  [.read (.bytes [97, 98, 99, 100]), .go, .write (.count 2), .write .error, .go,
    .read (.bytes [101, 102]), .go, .write (.count 2), .go]

/-- **The client sends `"abcdef"` and gets `"abef"`.** -/
theorem session_skips_failedWrite :
    ∃ s, Trace (Session.step .tcp) kernelAnswers (Session.init zeros) failedWrite s ∧
      s.received = [97, 98, 99, 100, 101, 102] ∧ s.sent = [97, 98, 101, 102] ∧
      ¬s.sent <+: s.received := by
  obtain ⟨s, h, hp⟩ := Trace.exists_of_eval (Session.step .tcp) kernelAnswers
    (fun s => s.received = [97, 98, 99, 100, 101, 102] ∧ s.sent = [97, 98, 101, 102])
    (Session.init zeros) failedWrite (by decide +kernel)
  obtain ⟨hreceived, hsent⟩ := of_decide_eq_true hp
  refine ⟨s, h, hreceived, hsent, ?_⟩
  rw [hreceived, hsent]
  decide

end TcpEcho
end CaosSeminars
